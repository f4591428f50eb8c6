/-
Training.RbTree.CachedTheorems — the tree with a cached leftmost node keeps
its nodes in the order of their keys.

`Refines lt limit s l`: the nodes in memory are a balanced tree with the
entries `l`, in order, and the leftmost one is cached. Each call keeps this
and answers what the list answers (`step_refines`), so every run does.
-/
import Training.Lib.Calls
import Training.RbTree.Cached
import Training.RbTree.SearchTheorems
import Training.RbTree.UnlinkTheorems

namespace Training.RbTree

open Training.Lib.RedBlack Training.Lib.RedBlack.ColorTree Training.Lib

universe u v

variable {α : Type u} {κ : Type v} {m : Memory α} {t : ColorTree α} {x y : α} {k : κ}
  {lt : κ → κ → Bool} {key key' : α → κ} {xs l₁ l₂ : List α} {n fuel : Nat}

/-! ## Keys -/

/-- `less` is a partial order in which to be incomparable is to be equivalent. -/
structure StrictWeak (lt : κ → κ → Bool) : Prop where
  asymm : ∀ a b, lt a b = true → lt b a = false
  /-- What is less than `b` is less than `c`, or `c` is less than `b`. -/
  cotrans : ∀ a b c, lt a b = true → lt a c = true ∨ lt c b = true

theorem StrictWeak.not_trans {a b c : κ} (h : StrictWeak lt) (hab : lt a b = false)
    (hbc : lt b c = false) : lt a c = false := by
  cases hac : lt a c with
  | false => rfl
  | true => exact absurd (h.cotrans a c b hac) (by simp [hab, hbc])

namespace Listing

/-- The nodes with their keys. -/
def entries (key : α → κ) (xs : List α) : Entries α κ := xs.map fun x => (x, key x)

@[simp] theorem nodes_entries (key : α → κ) (xs : List α) : nodes (entries key xs) = xs := by
  simp [nodes, entries, Function.comp_def]

@[simp] theorem length_entries (key : α → κ) (xs : List α) :
    (entries key xs).length = xs.length := List.length_map _

theorem sorted_entries :
    Sorted lt (entries key xs) ↔ xs.Pairwise fun a b => lt (key b) (key a) = false := by
  simp [Sorted, entries, List.pairwise_map]

theorem entries_congr (h : ∀ x ∈ xs, key' x = key x) : entries key' xs = entries key xs :=
  List.map_congr_left fun x hx => by rw [h x hx]

theorem entries_append : entries key (l₁ ++ l₂) = entries key l₁ ++ entries key l₂ :=
  List.map_append

/-- The place behind what is not greater parts the entries. -/
theorem insert_entries (hx : key x = k) (hbefore : ∀ y ∈ l₁, lt k (key y) = false)
    (hbehind : ∀ y ∈ l₂, lt k (key y) = true) :
    insert lt x k (entries key (l₁ ++ l₂)) = entries key (l₁ ++ x :: l₂) := by
  have htake : ∀ e ∈ entries key l₁, (!lt k e.2) = true := by
    simpa [entries] using hbefore
  have hdrop : (entries key l₂).takeWhile (fun e => !lt k e.2) = [] ∧
      (entries key l₂).dropWhile (fun e => !lt k e.2) = entries key l₂ := by
    cases l₂ with
    | nil => simp [entries]
    | cons y l₂ =>
      have hy := hbehind y List.mem_cons_self
      simp [entries, hy]
  rw [insert, entries_append, List.takeWhile_append_of_pos htake,
    List.dropWhile_append_of_pos htake, hdrop.1, hdrop.2, entries_append, List.append_nil, ← hx]
  rfl

end Listing

theorem guides_of_sorted (hlt : StrictWeak lt)
    (h : xs.Pairwise fun a b => lt (key b) (key a) = false) (x : α) :
    Guides (Memory.lessSide (fun a b => lt (key a) (key b)) x) xs := by
  refine h.imp fun {a b} hab => ⟨fun ha => ?_, fun hb => ?_⟩
  · have hxa : lt (key x) (key a) = true := by simpa [Memory.lessSide] using ha
    have hxb := (hlt.cotrans _ _ (key b) hxa).resolve_right (by simp [hab])
    simp [Memory.lessSide, hxb]
  · have hxb : lt (key x) (key b) = false := by simpa [Memory.lessSide] using hb
    simp [Memory.lessSide, hlt.not_trans hxb hab]

theorem sorted_insert (hlt : StrictWeak lt)
    (h : (l₁ ++ l₂).Pairwise fun a b => lt (key b) (key a) = false)
    (hbefore : ∀ y ∈ l₁, lt (key x) (key y) = false)
    (hbehind : ∀ y ∈ l₂, lt (key x) (key y) = true) :
    (l₁ ++ x :: l₂).Pairwise fun a b => lt (key b) (key a) = false := by
  rw [List.pairwise_append] at h ⊢
  refine ⟨h.1, List.pairwise_cons.mpr ⟨fun y hy => hlt.asymm _ _ (hbehind y hy), h.2.1⟩,
    fun a ha b hb => ?_⟩
  rcases List.mem_cons.mp hb with rfl | hb
  · exact hbefore a ha
  · exact h.2.2 a ha b hb

/-- Between its neighbours a node is in order. -/
theorem sorted_iff_neighbours (hlt : StrictWeak lt)
    (h : (l₁ ++ l₂).Pairwise fun a b => lt (key b) (key a) = false) :
    ((l₁ ++ x :: l₂).Pairwise fun a b => lt (key b) (key a) = false) ↔
      Cached.lessIf (fun a b => lt (key a) (key b)) (some x) l₁.getLast? = false ∧
        Cached.lessIf (fun a b => lt (key a) (key b)) l₂.head? (some x) = false := by
  rw [List.pairwise_append] at h
  constructor
  · intro hsorted
    obtain ⟨-, hright, hleft⟩ := List.pairwise_append.mp hsorted
    constructor
    · cases hlast : l₁.getLast? with
      | none => rfl
      | some p => exact hleft p (List.mem_of_getLast? hlast) x List.mem_cons_self
    · cases hhead : l₂.head? with
      | none => rfl
      | some q => exact (List.pairwise_cons.mp hright).1 q (List.mem_of_head? hhead)
  · rintro ⟨hleft, hright⟩
    have hbefore : ∀ a ∈ l₁, lt (key x) (key a) = false := by
      intro a ha
      rcases List.eq_nil_or_concat' l₁ with rfl | ⟨front, p, rfl⟩
      · cases ha
      · have hxp : lt (key x) (key p) = false := by simpa [Cached.lessIf] using hleft
        rcases List.mem_append.mp ha with ha | ha
        · have hpa : lt (key p) (key a) = false :=
            (List.pairwise_append.mp h.1).2.2 a ha p (by simp)
          exact hlt.not_trans hxp hpa
        · obtain rfl := List.mem_singleton.mp ha
          exact hxp
    have hbehind : ∀ b ∈ l₂, lt (key b) (key x) = false := by
      intro b hb
      cases l₂ with
      | nil => cases hb
      | cons q rest =>
        have hqx : lt (key q) (key x) = false := by simpa [Cached.lessIf] using hright
        rcases List.mem_cons.mp hb with rfl | hb
        · exact hqx
        · exact hlt.not_trans ((List.pairwise_cons.mp h.2.1).1 b hb) hqx
    refine List.pairwise_append.mpr ⟨h.1, List.pairwise_cons.mpr ⟨hbehind, h.2.1⟩,
      fun a ha b hb => ?_⟩
    rcases List.mem_cons.mp hb with rfl | hb
    · exact hbefore a ha
    · exact h.2.2 a ha b hb

/-! ## The functions -/

variable [DecidableEq α] {tree : Cached α}

theorem rbAddCached_spec {less : α → α → Bool} (h : IsTree tree.rbRoot xs)
    (hleftmost : tree.rbLeftmost = xs.head?) (hx : x ∉ xs)
    (hguides : Guides (Memory.lessSide less x) xs) (hfuel : xs.length < fuel) :
    ∃ tree' l₁ l₂, tree.rbAddCached less fuel x =
        some (tree', if (l₁ ++ x :: l₂).head? = some x then some x else none) ∧
      IsTree tree'.rbRoot (l₁ ++ x :: l₂) ∧ tree'.rbLeftmost = (l₁ ++ x :: l₂).head? ∧
      xs = l₁ ++ l₂ ∧ (∀ y ∈ l₁, less x y = false) ∧ ∀ y ∈ l₂, less x y = true := by
  obtain ⟨parent, link, left, l₁, l₂, hdescend, ⟨m', hinsert, htree⟩, rfl,
    hleft, hbefore, hafter⟩ :=
    h.descend_less hx hguides hfuel
  have hhead : (l₁ ++ x :: l₂).head? = some x ↔ left = true := by
    rw [hleft]
    cases l₁ with
    | nil => simp
    | cons y l₁ =>
      have hyx : y ≠ x := by
        rintro rfl
        simp at hx
      simp [hyx]
  refine ⟨⟨m', (l₁ ++ x :: l₂).head?⟩, l₁, l₂, ?_, htree, rfl, rfl, hbefore, hafter⟩
  unfold Cached.rbAddCached
  rw [hdescend]
  cases l₁ with
  | nil =>
    obtain rfl : left = true := hleft.mpr rfl
    simp [Cached.rbInsertColorCached, hinsert]
  | cons y l₁ =>
    obtain rfl : left = false := by simpa using hleft
    have hyx : y ≠ x := by
      rintro rfl
      simp at hx
    simp [Cached.rbInsertColorCached, hinsert, hyx, hleftmost]

theorem rbEraseCached_spec (h : IsTree tree.rbRoot xs) (hleftmost : tree.rbLeftmost = xs.head?)
    (hx : x ∈ xs) (hfuel : xs.length ≤ fuel) :
    ∃ tree', tree.rbEraseCached fuel x =
        some (tree', if xs.head? = some x then (xs.erase x).head? else none) ∧
      IsTree tree'.rbRoot (xs.erase x) ∧ tree'.rbLeftmost = (xs.erase x).head? := by
  obtain ⟨m', herase, htree⟩ := h.erase hx hfuel
  refine ⟨⟨m', (xs.erase x).head?⟩, ?_, htree, rfl⟩
  unfold Cached.rbEraseCached
  rw [hleftmost]
  cases xs with
  | nil => cases hx
  | cons y ys =>
    by_cases hyx : y = x
    · subst hyx
      have htree : IsTree tree.rbRoot ([] ++ y :: ys) := h
      have hnext : tree.rbRoot.rbNext fuel y = some ys.head? := htree.next hfuel
      simp [hnext, herase]
    · simp [hyx, herase, hleftmost]

theorem rbReplaceNodeCached_spec (h : IsTree tree.rbRoot (l₁ ++ x :: l₂))
    (hleftmost : tree.rbLeftmost = (l₁ ++ x :: l₂).head?) (hy : y ∉ l₁ ++ x :: l₂) :
    IsTree (tree.rbReplaceNodeCached x y).rbRoot (l₁ ++ y :: l₂) ∧
      (tree.rbReplaceNodeCached x y).rbLeftmost = (l₁ ++ y :: l₂).head? := by
  have hnodup := h.nodup
  unfold Cached.rbReplaceNodeCached
  rw [hleftmost]
  cases l₁ with
  | nil => exact ⟨by simpa using h.replace hy, by simp⟩
  | cons z l₁ =>
    have hzx : z ≠ x := by
      rintro rfl
      simp at hnodup
    exact ⟨by simpa [hzx] using h.replace hy, by simp [hzx, hleftmost]⟩

theorem rbMoveCached_spec {less : α → α → Bool} (h : IsTree tree.rbRoot (l₁ ++ x :: l₂))
    (hleftmost : tree.rbLeftmost = (l₁ ++ x :: l₂).head?)
    (hguides : Guides (Memory.lessSide less x) (l₁ ++ l₂))
    (hfuel : (l₁ ++ x :: l₂).length ≤ fuel) :
    ∃ tree' ys, tree.rbMoveCached less fuel x = some tree' ∧ IsTree tree'.rbRoot ys ∧
      tree'.rbLeftmost = ys.head? ∧
      if Cached.lessIf less (some x) l₁.getLast? || Cached.lessIf less l₂.head? (some x) then
        ∃ l₃ l₄, l₁ ++ l₂ = l₃ ++ l₄ ∧ ys = l₃ ++ x :: l₄ ∧ (∀ y ∈ l₃, less x y = false) ∧
          ∀ y ∈ l₄, less x y = true
      else ys = l₁ ++ x :: l₂ := by
  obtain ⟨hx, -⟩ := List.nodup_cons.mp (List.nodup_middle.mp h.nodup)
  have herase : (l₁ ++ x :: l₂).erase x = l₁ ++ l₂ := by
    rw [List.erase_append_right _ fun hmem => hx (List.mem_append_left _ hmem),
      List.erase_cons_head]
  unfold Cached.rbMoveCached
  rw [h.prev hfuel, h.next hfuel, Option.bind_some, Option.bind_some]
  split
  · have hmem : x ∈ l₁ ++ x :: l₂ := by simp
    have hlt : (l₁ ++ l₂).length < fuel := by
      simp only [List.length_append, List.length_cons] at hfuel ⊢
      omega
    obtain ⟨tree₁, hcall, htree, hfirst⟩ := rbEraseCached_spec h hleftmost hmem hfuel
    rw [herase] at htree hfirst
    obtain ⟨tree₂, l₃, l₄, hadd, htree₂, hfirst₂, hlist, hbefore, hafter⟩ :=
      rbAddCached_spec htree hfirst hx hguides hlt
    exact ⟨tree₂, _, by simp [hcall, hadd], htree₂, hfirst₂, l₃, l₄, hlist, rfl, hbefore, hafter⟩
  · exact ⟨tree, _, rfl, h, hleftmost, rfl⟩

/-! ## The calls -/

open Listing

variable {s s' : Keyed α κ} {l l' : Entries α κ} {limit : Nat} {call : Call α κ} {r : Option α}

/-- The tree of the user has the entries `l`. -/
structure Refines (lt : κ → κ → Bool) (limit : Nat) (s : Keyed α κ) (l : Entries α κ) : Prop where
  tree : IsTree s.tree.rbRoot (nodes l)
  keys : entries s.key (nodes l) = l
  leftmost : s.tree.rbLeftmost = (nodes l).head?
  sorted : (nodes l).Pairwise fun a b => lt (s.key b) (s.key a) = false
  room : l.length < limit

omit [DecidableEq α] in
theorem refines_entries (htree : IsTree s.tree.rbRoot xs) (hleftmost : s.tree.rbLeftmost = xs.head?)
    (hsorted : xs.Pairwise fun a b => lt (s.key b) (s.key a) = false) (hroom : xs.length < limit) :
    Refines lt limit s (entries s.key xs) where
  tree := by simpa using htree
  keys := by simp
  leftmost := by simpa using hleftmost
  sorted := by simpa using hsorted
  room := by simpa using hroom

omit [DecidableEq α] in
theorem Refines.length_nodes (h : Refines lt limit s l) : (nodes l).length < limit := by
  simpa [nodes] using h.room

theorem setKey_of_ne (h : y ≠ x) : s.setKey x k y = s.key y := if_neg h

theorem setKey_self : s.setKey x k x = k := if_pos rfl

theorem pairwise_setKey (h : xs.Pairwise fun a b => lt (s.key b) (s.key a) = false) (hx : x ∉ xs) :
    xs.Pairwise fun a b => lt (s.setKey x k b) (s.setKey x k a) = false := by
  have hne : ∀ y ∈ xs, y ≠ x := fun y hy heq => hx (heq ▸ hy)
  refine h.imp_of_mem fun {a b} ha hb hab => ?_
  rwa [setKey_of_ne (hne a ha), setKey_of_ne (hne b hb)]

theorem entries_setKey (hx : x ∉ xs) : entries (s.setKey x k) xs = entries s.key xs :=
  entries_congr fun _ hy => setKey_of_ne fun heq => hx (heq ▸ hy)

theorem remove_entries (h : xs.Nodup) : remove x (entries key xs) = entries key (xs.erase x) := by
  rw [h.erase_eq_filter, remove, entries, entries, List.filter_map]
  refine congrArg _ (List.filter_congr fun y _ => ?_)
  by_cases hyx : y = x <;> simp [hyx]

theorem update_entries (hx : x ∉ l₁ ++ l₂) (hy : y ∉ l₁ ++ l₂) :
    update x y k (entries s.key (l₁ ++ x :: l₂)) = entries (s.setKey y k) (l₁ ++ y :: l₂) := by
  have hother : ∀ zs : List α, x ∉ zs → y ∉ zs →
      update x y k (entries s.key zs) = entries (s.setKey y k) zs := by
    intro zs hxz hyz
    rw [entries_setKey hyz, update, entries, List.map_map]
    refine List.map_congr_left fun z hz => ?_
    have hzx : z ≠ x := fun heq => hxz (heq ▸ hz)
    simp [hzx]
  rw [List.mem_append, not_or] at hx hy
  have hleft := hother l₁ hx.1 hy.1
  have hright := hother l₂ hx.2 hy.2
  have hcons : update x y k (entries s.key (x :: l₂)) =
      (y, k) :: update x y k (entries s.key l₂) := by
    simp [update, entries]
  have hself : entries (s.setKey y k) (y :: l₂) = (y, k) :: entries (s.setKey y k) l₂ := by
    simp [entries, setKey_self]
  rw [entries_append, entries_append, hself, ← hleft, ← hright, ← hcons]
  exact List.map_append

theorem behind_eq (hx : x ∉ l₁) : behind x (l₁ ++ x :: l₂) = l₂.head? := by
  have hskip : ∀ y ∈ l₁, decide (y ≠ x) = true := fun y hy => by
    simpa using fun heq : y = x => hx (heq ▸ hy)
  rw [behind, List.dropWhile_append_of_pos hskip]
  simp

theorem add_refines (hlt : StrictWeak lt) (h : Refines lt limit s l) (hx : x ∉ nodes l)
    (hroom : l.length + 1 < limit) :
    ∃ s', s.step lt limit (.add x k) =
        some (s', if (nodes (insert lt x k l)).head? = some x then some x else none) ∧
      Refines lt limit s' (insert lt x k l) := by
  obtain ⟨key', hkey'⟩ : ∃ key', key' = s.setKey x k := ⟨_, rfl⟩
  have hsorted : (nodes l).Pairwise fun a b => lt (key' b) (key' a) = false :=
    hkey' ▸ pairwise_setKey h.sorted hx
  obtain ⟨tree', l₁, l₂, hadd, htree, hleft, hlist, hbefore, hbehind⟩ :=
    rbAddCached_spec h.tree h.leftmost hx (guides_of_sorted hlt hsorted x) h.length_nodes
  have hself : key' x = k := by
    rw [hkey']
    exact setKey_self
  have hentries : entries key' (l₁ ++ l₂) = l := by
    rw [← hlist, hkey', entries_setKey hx, h.keys]
  have hinsert : insert lt x k l = entries key' (l₁ ++ x :: l₂) := by
    rw [← hentries]
    exact insert_entries hself (fun y hy => hself ▸ hbefore y hy) fun y hy => hself ▸ hbehind y hy
  have hlength : (l₁ ++ x :: l₂).length < limit := by
    have := congrArg List.length hentries
    simp only [length_entries, List.length_append, List.length_cons] at this ⊢
    omega
  refine ⟨⟨tree', key'⟩, ?_, ?_⟩
  · rw [hinsert, nodes_entries, Keyed.step, ← hkey', hadd]
    rfl
  · rw [hinsert]
    exact refines_entries htree hleft (sorted_insert hlt (hlist ▸ hsorted) hbefore hbehind) hlength

theorem erase_refines (h : Refines lt limit s l) (hx : x ∈ nodes l) :
    ∃ s', s.step lt limit (.erase x) =
        some (s', if (nodes l).head? = some x then (nodes (remove x l)).head? else none) ∧
      Refines lt limit s' (remove x l) := by
  obtain ⟨tree', herase, htree, hleft⟩ :=
    rbEraseCached_spec h.tree h.leftmost hx h.length_nodes.le
  have hremove : remove x l = entries s.key ((nodes l).erase x) := by
    rw [← remove_entries h.tree.nodup, h.keys]
  have hlength := List.length_erase_of_mem hx
  have hroom := h.length_nodes
  refine ⟨⟨tree', s.key⟩, ?_, ?_⟩
  · rw [hremove, nodes_entries, Keyed.step, herase]
    rfl
  · rw [hremove]
    exact refines_entries htree hleft (h.sorted.sublist List.erase_sublist) (by omega)

theorem replace_refines (h : Refines lt limit s l) (hx : x ∈ nodes l) (hy : y ∉ nodes l)
    (hsorted : Sorted lt (update x y k l)) :
    ∃ s', s.step lt limit (.replace x y k) = some (s', none) ∧
      Refines lt limit s' (update x y k l) := by
  obtain ⟨l₁, l₂, hlist⟩ := List.append_of_mem hx
  have hnodup := hlist ▸ h.tree.nodup
  obtain ⟨hx', -⟩ := List.nodup_cons.mp (List.nodup_middle.mp hnodup)
  have hkeys := h.keys
  have hroom := h.length_nodes
  rw [hlist] at hy hkeys hroom
  have hy' : y ∉ l₁ ++ l₂ := fun hmem => hy (by
    rcases List.mem_append.mp hmem with hmem | hmem <;> simp [hmem])
  have hupdate := update_entries (s := s) (k := k) hx' hy'
  rw [hkeys] at hupdate
  obtain ⟨htree, hleft⟩ := rbReplaceNodeCached_spec (hlist ▸ h.tree) (hlist ▸ h.leftmost) hy
  rw [hupdate, sorted_entries] at hsorted
  refine ⟨_, rfl, ?_⟩
  rw [hupdate]
  exact refines_entries htree hleft hsorted (by simpa using hroom)

theorem move_refines (hlt : StrictWeak lt) (h : Refines lt limit s l) (hx : x ∈ nodes l) :
    ∃ s', s.step lt limit (.move x k) = some (s', none) ∧
      Refines lt limit s' (if Sorted lt (update x x k l) then update x x k l
        else insert lt x k (remove x l)) := by
  obtain ⟨l₁, l₂, hlist⟩ := List.append_of_mem hx
  have hnodup := hlist ▸ h.tree.nodup
  obtain ⟨hx', -⟩ := List.nodup_cons.mp (List.nodup_middle.mp hnodup)
  have hkeys := h.keys
  have hroom := h.length_nodes
  have hsorted := h.sorted
  rw [hlist] at hkeys hroom hsorted
  obtain ⟨key', hkey'⟩ : ∃ key', key' = s.setKey x k := ⟨_, rfl⟩
  have hsub : (l₁ ++ l₂).Sublist (l₁ ++ x :: l₂) := by simp
  -- without `x` the list is sorted by the new keys, too
  have hrest : (l₁ ++ l₂).Pairwise fun a b => lt (key' b) (key' a) = false :=
    hkey' ▸ pairwise_setKey (hsorted.sublist hsub) hx'
  have hupdate := update_entries (s := s) (k := k) hx' hx'
  rw [hkeys, ← hkey'] at hupdate
  have hself : key' x = k := by
    rw [hkey']
    exact setKey_self
  obtain ⟨tree', ys, hmove, htree, hleft, hys⟩ := rbMoveCached_spec (hlist ▸ h.tree)
    (hlist ▸ h.leftmost) (guides_of_sorted hlt hrest x) hroom.le
  refine ⟨⟨tree', key'⟩, ?_, ?_⟩
  · rw [Keyed.step, ← hkey', hmove]
    rfl
  · have hneighbours := sorted_entries.trans (sorted_iff_neighbours (x := x) hlt hrest)
    rw [hupdate]
    split at hys
    · rename_i hcond
      obtain ⟨l₃, l₄, hparts, rfl, hbefore, hbehind⟩ := hys
      rw [if_neg fun hall => by simp [hneighbours.mp hall] at hcond]
      have hremove : remove x l = entries key' (l₃ ++ l₄) := by
        rw [← hkeys, remove_entries hnodup, List.erase_append_right _
          (fun hmem => hx' (List.mem_append_left _ hmem)), List.erase_cons_head, ← hparts, hkey',
          entries_setKey hx']
      rw [hremove, insert_entries hself (fun y hy => hself ▸ hbefore y hy)
        fun y hy => hself ▸ hbehind y hy]
      have hlength := congrArg List.length hparts
      simp only [List.length_append, List.length_cons] at hlength hroom
      exact refines_entries htree hleft (sorted_insert hlt (hparts ▸ hrest) hbefore hbehind)
        (by simp only [List.length_append, List.length_cons]; omega)
    · rename_i hcond
      subst hys
      have hall := hneighbours.mpr (by simpa using hcond)
      rw [if_pos hall]
      exact refines_entries htree hleft (sorted_entries.mp hall) hroom

theorem Refines.neighbours (h : Refines lt limit s l) (hx : x ∈ nodes l) :
    s.tree.rbRoot.rbNext limit x = some (behind x (nodes l)) ∧
      s.tree.rbRoot.rbPrev limit x = some (behind x (nodes l).reverse) := by
  obtain ⟨l₁, l₂, hlist⟩ := List.append_of_mem hx
  have hnodup := List.nodup_cons.mp (List.nodup_middle.mp (hlist ▸ h.tree.nodup))
  rw [List.mem_append, not_or] at hnodup
  have htree := hlist ▸ h.tree
  have hroom := (hlist ▸ h.length_nodes).le
  have hreverse : (l₁ ++ x :: l₂).reverse = l₂.reverse ++ x :: l₁.reverse := by simp
  rw [hlist, hreverse, behind_eq hnodup.1.1, behind_eq (by simpa using hnodup.1.2),
    List.head?_reverse]
  exact ⟨htree.next hroom, htree.prev hroom⟩

theorem step_refines (hlt : StrictWeak lt) (h : Refines lt limit s l)
    (hcall : Listing.step lt limit l call = some (l', r)) :
    ∃ s', s.step lt limit call = some (s', r) ∧ Refines lt limit s' l' := by
  cases call with
  | add x k =>
    simp only [Listing.step] at hcall
    split at hcall
    · rename_i hgranted
      obtain ⟨rfl, rfl⟩ := Prod.mk.inj (Option.some.inj hcall)
      exact add_refines hlt h hgranted.1 hgranted.2
    · cases hcall
  | erase x =>
    simp only [Listing.step] at hcall
    split at hcall
    · rename_i hgranted
      obtain ⟨rfl, rfl⟩ := Prod.mk.inj (Option.some.inj hcall)
      exact erase_refines h hgranted
    · cases hcall
  | replace x y k =>
    simp only [Listing.step] at hcall
    split at hcall
    · rename_i hgranted
      obtain ⟨rfl, rfl⟩ := Prod.mk.inj (Option.some.inj hcall)
      exact replace_refines h hgranted.1 hgranted.2.1 hgranted.2.2
    · cases hcall
  | move x k =>
    simp only [Listing.step] at hcall
    split at hcall
    · rename_i hgranted
      obtain ⟨rfl, rfl⟩ := Prod.mk.inj (Option.some.inj hcall)
      exact move_refines hlt h hgranted
    · cases hcall
  | first =>
    obtain ⟨rfl, rfl⟩ := Prod.mk.inj (Option.some.inj hcall)
    exact ⟨s, by rw [← h.leftmost]; rfl, h⟩
  | next x =>
    simp only [Listing.step] at hcall
    split at hcall
    · rename_i hx
      obtain ⟨rfl, rfl⟩ := Prod.mk.inj (Option.some.inj hcall)
      exact ⟨s, by simp only [Keyed.step, (h.neighbours hx).1, Option.map_some], h⟩
    · cases hcall
  | prev x =>
    simp only [Listing.step] at hcall
    split at hcall
    · rename_i hx
      obtain ⟨rfl, rfl⟩ := Prod.mk.inj (Option.some.inj hcall)
      exact ⟨s, by simp only [Keyed.step, (h.neighbours hx).2, Option.map_some], h⟩
    · cases hcall

omit [DecidableEq α] in
theorem start_refines (parent : α → Option α) (color : α → Color) (child : Side → α → Option α)
    (key : α → κ) (hlimit : 0 < limit) :
    Refines lt limit (Keyed.start parent color child key) ([] : Entries α κ) where
  tree := isTree_nil rfl
  keys := rfl
  leftmost := rfl
  sorted := .nil
  room := hlimit

theorem run_refines {calls : List (Call α κ)} {rs : List (Option α)} (hlt : StrictWeak lt)
    (hlimit : 0 < limit) (parent : α → Option α) (color : α → Color) (child : Side → α → Option α)
    (key : α → κ) (hcalls : Training.Lib.calls (Listing.step lt limit) [] calls = some (l, rs)) :
    ∃ s, Training.Lib.calls (Keyed.step lt limit) (Keyed.start parent color child key) calls =
        some (s, rs) ∧ Refines lt limit s l := by
  have hstep : ∀ (s : Keyed α κ) l call l' r, Refines lt limit s l →
      Listing.step lt limit l call = some (l', r) →
        ∃ s', s.step lt limit call = some (s', r) ∧ Refines lt limit s' l' :=
    fun _ _ _ _ _ href hcall => step_refines hlt href hcall
  exact calls_simulation hstep (start_refines parent color child key hlimit) hcalls

/-- The tree answers as the list does, in every run. -/
theorem calls_refine {parent : α → Option α} {color : α → Color} {child : Side → α → Option α}
    {calls : List (Call α κ)} {rs : List (Option α)} (hlt : StrictWeak lt) (hlimit : 0 < limit)
    (hcalls : Training.Lib.calls (Listing.step lt limit) [] calls = some (l, rs)) :
    ∃ s, Training.Lib.calls (Keyed.step lt limit) (Keyed.start parent color child key) calls =
        some (s, rs) ∧
      (∃ t n, Represents s.tree.rbRoot t ∧ WellColored t .black n ∧
        t.toList.map (fun x => (x, s.key x)) = l) ∧
      s.tree.rbLeftmost = (nodes l).head? ∧ Sorted lt l := by
  obtain ⟨s, hrun, href⟩ := run_refines hlt hlimit parent color child key hcalls
  obtain ⟨t, n, hrep, hb, hlist⟩ := href.tree
  refine ⟨s, hrun, ⟨t, n, hrep, hb, ?_⟩, href.leftmost, ?_⟩
  · rw [hlist]
    exact href.keys
  · rw [← href.keys]
    exact sorted_entries.mpr href.sorted

theorem strictWeak_blt : StrictWeak Nat.blt where
  asymm a b h := by
    simp only [Nat.blt_eq, Bool.eq_false_iff, ne_eq] at h ⊢
    omega
  cotrans a b c h := by
    simp only [Nat.blt_eq] at h ⊢
    omega

theorem calls_refine_move : ∃ s : Keyed Nat Nat, Training.Lib.calls (Keyed.step Nat.blt 5)
    (Keyed.start (fun _ => none) (fun _ => .red) (fun _ _ => none) fun _ => 0)
    [.add 1 5, .add 2 3, .add 3 4, .move 2 9, .first, .next 1, .erase 3, .prev 2] =
      some (s, [some 1, some 2, none, none, some 3, some 2, some 1, some 1]) :=
  (calls_refine strictWeak_blt (by decide) rfl).imp fun _ h => h.1

/-! ## Walks and searches in a state that is reached -/

/-- A run of calls leads to the state, and the same calls to the list. -/
def Reached (lt : κ → κ → Bool) (limit : Nat) (s : Keyed α κ) (l : Entries α κ) : Prop :=
  ∃ parent color child key calls rs,
    Training.Lib.calls (Listing.step lt limit) [] calls = some (l, rs) ∧
      Training.Lib.calls (Keyed.step lt limit) (Keyed.start parent color child key) calls =
        some (s, rs)

theorem Reached.refines (h : Reached lt limit s l) (hlt : StrictWeak lt) (hlimit : 0 < limit) :
    Refines lt limit s l := by
  obtain ⟨parent, color, child, key, calls, rs, hlist, hrun⟩ := h
  obtain ⟨s', hrun', href⟩ := run_refines hlt hlimit parent color child key hlist
  obtain rfl : s' = s := congrArg Prod.fst (Option.some.inj (hrun'.symm.trans hrun))
  exact href

theorem exists_reached {calls : List (Call α κ)} {rs : List (Option α)} (hlt : StrictWeak lt)
    (hlimit : 0 < limit) (key : α → κ)
    (hcalls : Training.Lib.calls (Listing.step lt limit) [] calls = some (l, rs)) :
    ∃ s, Reached lt limit s l := by
  obtain ⟨s, hrun, -⟩ := run_refines hlt hlimit (fun _ => none) (fun _ => .red)
    (fun _ _ => none) key hcalls
  exact ⟨s, _, _, _, _, calls, rs, hcalls, hrun⟩

/-- The loops over the tree visit each node once: up and down the order of
the keys, and the children before the node. -/
theorem walks_visit (h : Reached lt limit s l) (hlt : StrictWeak lt) (hlimit : 0 < limit) :
    (s.tree.rbRoot.rbFirst limit).bind (Memory.forEach (s.tree.rbRoot.rbNext limit) limit) =
        some (nodes l) ∧
      Memory.forEach (s.tree.rbRoot.rbNext limit) limit s.tree.rbFirstCached = some (nodes l) ∧
      (s.tree.rbRoot.rbLast limit).bind (Memory.forEach (s.tree.rbRoot.rbPrev limit) limit) =
        some (nodes l).reverse ∧
      ∃ t, Represents s.tree.rbRoot t ∧ t.toList = nodes l ∧
        (s.tree.rbRoot.rbFirstPostorder limit).bind
          (Memory.forEach (s.tree.rbRoot.rbNextPostorder limit) limit) = some t.postorder := by
  have href := h.refines hlt hlimit
  obtain ⟨t, n, hrep, -, hlist⟩ := href.tree
  have hroom : t.toList.length < limit := hlist ▸ href.length_nodes
  rw [rbFirst_spec hrep hroom.le, rbLast_spec hrep hroom.le, rbFirstPostorder_spec hrep hroom.le,
    Cached.rbFirstCached, href.leftmost, ← hlist]
  have hnext := forEach_rbNext hrep List.suffix_rfl hroom
  exact ⟨hnext, hnext, forEach_rbPrev hrep hroom, t, hrep, rfl, forEach_rbNextPostorder hrep hroom⟩

theorem walks_visit_three : ∃ s : Keyed Nat Nat,
    Memory.forEach (s.tree.rbRoot.rbNext 5) 5 s.tree.rbFirstCached = some [3, 1, 2] := by
  obtain ⟨s, hs⟩ := exists_reached (l := [(3, 4), (1, 5), (2, 9)]) strictWeak_blt
    (by decide : 0 < 5) (fun _ : Nat => 0)
    (show Training.Lib.calls (Listing.step Nat.blt 5) [] [.add 1 5, .add 2 3, .add 3 4, .move 2 9] =
      some (_, [some 1, some 2, none, none]) from rfl)
  exact ⟨s, (walks_visit hs strictWeak_blt (by decide)).2.1⟩

/-- A comparison of a key with the keys of the tree, in their order. -/
def Compares (lt : κ → κ → Bool) (cmp : κ → Int) : Prop :=
  ∀ a b, lt b a = false → (cmp a < 0 → cmp b < 0) ∧ (0 < cmp b → 0 < cmp a)

omit [DecidableEq α] in
theorem guides_of_compares {cmp : κ → Int} (hcmp : Compares lt cmp)
    (h : xs.Pairwise fun a b => lt (key b) (key a) = false) :
    Guides (fun x => Memory.cmpSide (cmp (key x))) xs := by
  refine h.imp fun {a b} hab => ?_
  rw [cmpSide_left_iff, cmpSide_left_iff, cmpSide_right_iff, cmpSide_right_iff]
  exact hcmp _ _ hab

/-- `rb_find` looks at `2 * log₂ (n + 1)` of the `n` nodes at most, and so
does `rb_find_first`; `rb_for_each` visits the nodes with a matching key. -/
theorem searches_find {cmp : κ → Int} {steps : Nat} (h : Reached lt limit s l)
    (hlt : StrictWeak lt) (hlimit : 0 < limit) (hcmp : Compares lt cmp)
    (hsteps : 2 * Nat.log 2 (l.length + 1) < steps) :
    (∃ found, s.tree.rbRoot.rbFind (fun x => cmp (s.key x)) steps = some found ∧
        (∀ x, found = some x → ∃ k, (x, k) ∈ l ∧ cmp k = 0) ∧
        (found = none → ∀ e ∈ l, cmp e.2 ≠ 0)) ∧
      (s.tree.rbRoot.rbFindFirst (fun x => cmp (s.key x)) steps).bind
          (Memory.forEach (s.tree.rbRoot.rbNextMatch (fun x => cmp (s.key x)) limit) limit) =
        some (nodes (l.filter fun e => cmp e.2 = 0)) := by
  have href := h.refines hlt hlimit
  obtain ⟨t, n, hrep, hb, hlist⟩ := href.tree
  have hroom : t.toList.length < limit := hlist ▸ href.length_nodes
  have hlength : t.toList.length = l.length := by rw [hlist, nodes, List.length_map]
  have hheight : t.height < steps := (height_le_log hb).trans_lt (hlength ▸ hsteps)
  have hguides := guides_of_compares hcmp (hlist ▸ href.sorted)
  have hkeys : entries s.key t.toList = l := hlist ▸ href.keys
  have hfilter : t.toList.filter (fun x => cmp (s.key x) = 0) =
      nodes (l.filter fun e => cmp e.2 = 0) := by
    rw [← hkeys, entries, List.filter_map, nodes, List.map_map]
    simp [Function.comp_def]
  constructor
  · obtain ⟨found, hfind, hfound⟩ := rbFind_spec hrep hguides hheight
    refine ⟨found, hfind, fun x hx => ?_, fun hnone e he => ?_⟩
    · subst hx
      refine ⟨s.key x, ?_, hfound.2⟩
      rw [← hkeys]
      exact List.mem_map_of_mem hfound.1
    · subst hnone
      rw [← hkeys] at he
      obtain ⟨x, hx, rfl⟩ := List.mem_map.mp he
      exact hfound x hx
  · rw [rbFindFirst_spec hrep hguides hheight, Option.bind_some, ← hfilter]
    exact forEach_rbNextMatch hrep hguides hroom

theorem searches_find_twice : ∃ s : Keyed Nat Nat,
    (s.tree.rbRoot.rbFindFirst (fun x => 5 - (s.key x : Int)) 5).bind
      (Memory.forEach (s.tree.rbRoot.rbNextMatch (fun x => 5 - (s.key x : Int)) 5) 5) =
        some [1, 3] := by
  obtain ⟨s, hs⟩ := exists_reached (l := [(2, 3), (1, 5), (3, 5)]) strictWeak_blt
    (by decide : 0 < 5) (fun _ : Nat => 0)
    (show Training.Lib.calls (Listing.step Nat.blt 5) [] [.add 1 5, .add 2 3, .add 3 5] =
      some (_, [some 1, some 2, none]) from rfl)
  have hcmp : Compares Nat.blt fun k => 5 - (k : Int) := by
    intro a b hab
    have hle : ¬ b < a := by simpa [Nat.blt_eq, Bool.eq_false_iff] using hab
    simp only
    omega
  exact ⟨s, (searches_find hs strictWeak_blt (by decide) hcmp (by decide)).2⟩

end Training.RbTree
