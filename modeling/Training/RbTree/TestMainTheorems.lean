/-
Training.RbTree.TestMainTheorems — the program keeps a table of records.

`Stores limit t l`: the tree in memory has the records `l`, in the order of
their keys, and these are the records that are allocated. A command does to
the table what `Table.step` says and prints and returns the same
(`step_stores`); so does every run of commands, and nothing leaks.
-/
import Training.Lib.Calls
import Training.RbTree.SearchTheorems
import Training.RbTree.TestMain
import Training.RbTree.UnlinkTheorems

namespace Training.RbTree

open Training.Lib.RedBlack Training.Lib.RedBlack.ColorTree Training.Lib

universe u

variable {α : Type u} {t t' : Mytree α} {l : List (Entry α)} {xs l₁ l₂ : List α} {x y : α}
  {k : Int} {string : List Char} {limit : Nat} {e : Entry α}

/-! ## Records in order -/

theorem result_left_iff {j : Int} : Memory.cmpSide (Mytree.result k j) = some .left ↔ k < j := by
  grind [Memory.cmpSide, Mytree.result]

theorem result_right_iff {j : Int} : Memory.cmpSide (Mytree.result k j) = some .right ↔ j < k := by
  grind [Memory.cmpSide, Mytree.result]

theorem result_eq_zero_iff {j : Int} : Mytree.result k j = 0 ↔ j = k := by
  grind [Mytree.result]

theorem result_pos_iff {j : Int} : 0 < Mytree.result k j ↔ j < k := by
  grind [Mytree.result]

theorem result_neg_iff {j : Int} : Mytree.result k j < 0 ↔ k < j := by
  grind [Mytree.result]

theorem guides_of_keys {key : α → Int} (h : xs.Pairwise fun a b => key a < key b) (k : Int) :
    Guides (fun x => Memory.cmpSide (Mytree.result k (key x))) xs := by
  refine h.imp fun {a b} hab => ?_
  rw [result_left_iff, result_left_iff, result_right_iff, result_right_iff]
  omega

namespace Mytree

def entry (t : Mytree α) (x : α) : Entry α := ⟨x, t.key x, t.keystring x⟩

/-- The memory has the records of the nodes `xs`. -/
structure Stores (limit : Nat) (t : Mytree α) (xs : List α) : Prop where
  tree : IsTree t.root xs
  sorted : xs.Pairwise fun a b => t.key a < t.key b
  live : t.live.Perm xs
  room : xs.length < limit

def entries (t : Mytree α) (xs : List α) : List (Entry α) := xs.map t.entry

@[simp] theorem map_node_entries : (t.entries xs).map (·.node) = xs := by
  simp [entries, entry, Function.comp_def]

theorem find_entries (k : Int) :
    Table.find k (t.entries xs) = (xs.find? fun x => t.key x = k).map t.entry := by
  rw [Table.find, entries, List.find?_map]
  rfl

theorem entries_congr (h : ∀ x ∈ xs, t'.key x = t.key x ∧ t'.keystring x = t.keystring x) :
    t'.entries xs = t.entries xs :=
  List.map_congr_left fun x hx => by rw [entry, entry, (h x hx).1, (h x hx).2]

theorem Stores.eq_of_key (h : Stores limit t xs) (hx : x ∈ xs) (hy : y ∈ xs)
    (hkey : t.key x = t.key y) : x = y := by
  have hkeys : (xs.map t.key).Pairwise (· < ·) := List.pairwise_map.mpr h.sorted
  exact List.inj_on_of_nodup_map (hkeys.imp fun hlt => hlt.ne) hx hy hkey

theorem Stores.mytypeSearch (h : Stores limit t xs) (string : List Char) :
    t.mytypeSearch limit string = some (xs.find? fun x => t.key x = atol string) := by
  obtain ⟨tree, n, hrep, -, hlist⟩ := h.tree
  have hguides := hlist ▸ guides_of_keys h.sorted (atol string)
  have hheight : tree.height < limit :=
    (height_le_length tree).trans_lt (hlist ▸ h.room)
  obtain ⟨found, hfind, hfound⟩ := rbFind_spec hrep hguides hheight
  rw [hlist] at hfound
  unfold Mytree.mytypeSearch
  rw [hfind]
  cases found with
  | none =>
    have hnone : xs.find? (fun x => t.key x = atol string) = none := by
      rw [List.find?_eq_none]
      intro x hx
      simpa [result_eq_zero_iff] using hfound x hx
    rw [hnone]
  | some y =>
    have hy : t.key y = atol string := result_eq_zero_iff.mp hfound.2
    cases hsome : xs.find? (fun x => t.key x = atol string) with
    | none => exact absurd hy (by simpa using List.find?_eq_none.mp hsome y hfound.1)
    | some z =>
      have hz : t.key z = atol string := by simpa using List.find?_some hsome
      rw [h.eq_of_key hfound.1 (List.mem_of_find?_eq_some hsome) (hy.trans hz.symm)]

variable [DecidableEq α]

/-! ## The functions -/

theorem free_of_mem (h : x ∈ t.live) : t.free x = some { t with live := t.live.erase x } := if_pos h

theorem record_entries {ks : List Char} (hx : x ∉ xs) :
    (t.record x k ks).entries xs = t.entries xs := by
  refine entries_congr fun y hy => ?_
  have hyx : y ≠ x := fun heq => hx (heq ▸ hy)
  simp [Mytree.record, hyx]

omit [DecidableEq α] in
theorem insert_entries (hbefore : ∀ y ∈ l₁, t.key y < t.key x)
    (hbehind : ∀ y ∈ l₂, t.key x < t.key y) :
    Table.insert (t.entry x) (t.entries (l₁ ++ l₂)) = t.entries (l₁ ++ x :: l₂) := by
  have hlow : ∀ e ∈ t.entries l₁, e.key < t.key x := by simpa [entries, entry] using hbefore
  have hhigh : ∀ e ∈ t.entries l₂, t.key x < e.key := by simpa [entries, entry] using hbehind
  have happend : t.entries (l₁ ++ l₂) = t.entries l₁ ++ t.entries l₂ := List.map_append
  have hleft : (t.entries l₁).filter (fun a => a.key < t.key x) = t.entries l₁ ∧
      (t.entries l₁).filter (fun a => t.key x < a.key) = [] := by
    rw [List.filter_eq_self, List.filter_eq_nil_iff]
    exact ⟨fun e he => decide_eq_true (hlow e he), fun e he => by simpa using (hlow e he).le⟩
  have hright : (t.entries l₂).filter (fun a => a.key < t.key x) = [] ∧
      (t.entries l₂).filter (fun a => t.key x < a.key) = t.entries l₂ := by
    rw [List.filter_eq_self, List.filter_eq_nil_iff]
    exact ⟨fun e he => by simpa using (hhigh e he).le, fun e he => decide_eq_true (hhigh e he)⟩
  have hkey : (t.entry x).key = t.key x := rfl
  rw [Table.insert, hkey, happend, List.filter_append, List.filter_append, hleft.1, hleft.2,
    hright.1, hright.2, List.append_nil, List.nil_append]
  simp [entries]

theorem Stores.inster {k : Int64} (h : Stores limit t xs) (hx : x ∉ xs) (hroom : xs.length + 1 < limit) :
    (∃ e, Table.find k.toInt (t.entries xs) = some e ∧
      ∃ t', t.testInsterMynode limit (some x) k =
          some (t', [.insterError (toString k.toInt).toList], -EPERM) ∧
        Stores limit t' xs ∧ t'.entries xs = t.entries xs) ∨
    Table.find k.toInt (t.entries xs) = none ∧
      ∃ t' ys, t.testInsterMynode limit (some x) k = some (t', [], 0) ∧ Stores limit t' ys ∧
        t'.entries ys = Table.insert ⟨x, k.toInt, (toString k.toInt).toList⟩ (t.entries xs) := by
  obtain ⟨t₁, ht₁⟩ : ∃ t₁, t₁ = t.record x k.toInt (toString k.toInt).toList := ⟨_, rfl⟩
  have hkey : ∀ y ∈ xs, t₁.key y = t.key y := by
    intro y hy
    have hyx : y ≠ x := fun heq => hx (heq ▸ hy)
    simp [ht₁, record, hyx]
  have hself : t₁.key x = k.toInt := by simp [ht₁, record]
  have hlive : t₁.live = x :: t.live := by simp [ht₁, record]
  have hsorted : xs.Pairwise fun a b => t₁.key a < t₁.key b :=
    h.sorted.imp_of_mem fun {a b} ha hb hab => by rwa [hkey a ha, hkey b hb]
  have hentries : t₁.entries xs = t.entries xs := ht₁ ▸ record_entries hx
  have htree : IsTree t₁.root xs := by
    rw [ht₁]
    exact h.tree
  have hfind : Table.find k.toInt (t.entries xs) =
      (xs.find? fun y => t₁.key y = t₁.key x).map t₁.entry := by
    rw [← hentries, find_entries, hself]
  unfold testInsterMynode Mytree.mytypeInsert
  simp only [← ht₁]
  rcases htree.findAdd (fun x y => result (t₁.key x) (t₁.key y)) hx
    (guides_of_keys hsorted (t₁.key x)) h.room with
    ⟨y, hy, hzero, hadd⟩ | ⟨m', l₁, l₂, hadd, htree', rfl, hbefore, hbehind⟩
  · refine .inl ?_
    have hfree : t₁.free x = some { t₁ with live := t.live } := by
      rw [free_of_mem (by simp [hlive]), hlive, List.erase_cons_head]
    cases hsome : xs.find? fun y => t₁.key y = t₁.key x with
    | none =>
      exact absurd (result_eq_zero_iff.mp hzero) (by simpa using List.find?_eq_none.mp hsome y hy)
    | some z =>
      refine ⟨t₁.entry z, by rw [hfind, hsome]; rfl, { t₁ with live := t.live }, ?_,
        ⟨htree, hsorted, h.live, h.room⟩, hentries⟩
      simp [hadd, hfree]
  · refine .inr ⟨?_, { t₁ with root := m' }, l₁ ++ x :: l₂, by simp [hadd],
      ⟨htree', ?_, ?_, ?_⟩, ?_⟩
    · have hnone : (l₁ ++ l₂).find? (fun y => t₁.key y = t₁.key x) = none := by
        rw [List.find?_eq_none]
        intro y hy
        rcases List.mem_append.mp hy with hy | hy
        · simpa using (result_pos_iff.mp (hbefore y hy)).ne
        · simpa using (result_neg_iff.mp (hbehind y hy)).ne'
      rw [hfind, hnone]
      rfl
    · rw [List.pairwise_append] at hsorted ⊢
      refine ⟨hsorted.1, List.pairwise_cons.mpr
        ⟨fun y hy => result_neg_iff.mp (hbehind y hy), hsorted.2.1⟩, fun a ha b hb => ?_⟩
      rcases List.mem_cons.mp hb with rfl | hb
      · exact result_pos_iff.mp (hbefore a ha)
      · exact hsorted.2.2 a ha b hb
    · rw [hlive]
      exact (h.live.cons x).trans List.perm_middle.symm
    · simpa [Nat.add_assoc] using hroom
    · have hentry : t₁.entry x = ⟨x, k.toInt, (toString k.toInt).toList⟩ := by
        simp [entry, ht₁, record]
      rw [← hentries, ← hentry]
      exact (insert_entries (fun y hy => result_pos_iff.mp (hbefore y hy))
        fun y hy => result_neg_iff.mp (hbehind y hy)).symm

theorem Stores.erase_tree (h : Stores limit t xs) (hx : x ∈ xs) :
    ∃ m', t.root.rbErase limit x = some m' ∧
      ∃ t', Mytree.free { t with root := m' } x = some t' ∧ Stores limit t' (xs.erase x) ∧
        t'.key = t.key ∧ t'.keystring = t.keystring := by
  obtain ⟨m', herase, htree⟩ := h.tree.erase hx h.room.le
  refine ⟨m', herase, _, free_of_mem (h.live.mem_iff.mpr hx), ⟨htree, ?_, ?_, ?_⟩, rfl, rfl⟩
  · exact h.sorted.sublist List.erase_sublist
  · exact h.live.erase x
  · have hlength := List.length_erase_of_mem hx
    have hroom := h.room
    omega

theorem Stores.erase (h : Stores limit t xs) : ∃ t' ys,
    t.testEraseMynode limit string = some (t', [], 0) ∧ Stores limit t' ys ∧
      t'.entries ys = (t.entries xs).filter fun e => e.key ≠ atol string := by
  have hfilter : (t.entries xs).filter (fun e => e.key ≠ atol string) =
      t.entries (xs.filter fun x => t.key x ≠ atol string) := List.filter_map
  unfold testEraseMynode
  rw [h.mytypeSearch, Option.bind_some, hfilter]
  cases hsome : xs.find? fun x => t.key x = atol string with
  | none =>
    refine ⟨t, xs, rfl, h, congrArg _ (List.filter_eq_self.mpr fun x hx => ?_).symm⟩
    simpa using List.find?_eq_none.mp hsome x hx
  | some x =>
    have hx := List.mem_of_find?_eq_some hsome
    have hkey : t.key x = atol string := by simpa using List.find?_some hsome
    obtain ⟨m', herase, t', hfree, hstores, hkeys, hstrings⟩ := h.erase_tree hx
    refine ⟨t', xs.erase x, by simp [herase, hfree], hstores, ?_⟩
    rw [entries_congr fun y _ => ⟨congrFun hkeys y, congrFun hstrings y⟩,
      h.tree.nodup.erase_eq_filter]
    refine congrArg _ (List.filter_congr fun y hy => ?_)
    have heq : y = x ↔ t.key y = atol string :=
      ⟨fun heq => heq ▸ hkey, fun hyk => h.eq_of_key hy hx (hyk.trans hkey.symm)⟩
    by_cases hyx : y = x
    · simp [hyx, hkey]
    · simp [hyx, mt heq.mpr hyx]

theorem Stores.replace (h : Stores limit t xs) (hx : x ∉ xs) (hlength : string.length + 3 < nameMax)
    (hsome : (xs.find? fun y => t.key y = atol string) = some y) : ∃ t' ys,
    t.testReplaceMynode limit (some x) string = some (t', [], 0) ∧ Stores limit t' ys ∧
      t'.entries ys = (t.entries xs).map fun a =>
        if a = t.entry y then ⟨x, a.key, string ++ ['3', '3', '3']⟩ else a := by
  have hy := List.mem_of_find?_eq_some hsome
  have hkey : t.key y = atol string := by simpa using List.find?_some hsome
  obtain ⟨t₁, ht₁⟩ : ∃ t₁, t₁ = t.record x (atol string) (string ++ ['3', '3', '3']) := ⟨_, rfl⟩
  obtain ⟨l₁, l₂, rfl⟩ := List.append_of_mem hy
  have hnodup := h.tree.nodup
  have hold : ∀ z, z ≠ x → t₁.key z = t.key z ∧ t₁.keystring z = t.keystring z := by
    intro z hz
    simp [ht₁, record, hz]
  have hself : t₁.key x = t.key y := by simp [ht₁, record, hkey]
  have hlive : t₁.live = x :: t.live := by simp [ht₁, record]
  have hxy : x ≠ y := by
    rintro rfl
    simp at hx
  have hfree : Mytree.free { t₁ with root := t₁.root.rbReplaceNode y x } y =
      some { t₁ with root := t₁.root.rbReplaceNode y x, live := t₁.live.erase y } := by
    refine free_of_mem ?_
    simp [hlive, h.live.mem_iff]
  have hroot : t₁.root = t.root := by simp [ht₁, record]
  obtain ⟨hyl, hnodup'⟩ := List.nodup_cons.mp (List.nodup_middle.mp hnodup)
  have hother : ∀ z ∈ l₁ ++ l₂, z ≠ x ∧ z ≠ y := by
    intro z hz
    refine ⟨fun heq => hx ?_, fun heq => hyl (heq ▸ hz)⟩
    rw [← heq]
    rcases List.mem_append.mp hz with hz | hz <;> simp [hz]
  have hkeys : (l₁ ++ x :: l₂).map t₁.key = (l₁ ++ y :: l₂).map t.key := by
    simp only [List.map_append, List.map_cons, hself]
    congr 1
    · exact List.map_congr_left fun z hz =>
        (hold z (hother z (List.mem_append_left _ hz)).1).1
    · exact congrArg _ (List.map_congr_left fun z hz =>
        (hold z (hother z (List.mem_append_right _ hz)).1).1)
  refine ⟨{ t₁ with root := t₁.root.rbReplaceNode y x, live := t₁.live.erase y }, l₁ ++ x :: l₂, ?_,
    ⟨?_, ?_, ?_, ?_⟩, ?_⟩
  · unfold testReplaceMynode
    rw [h.mytypeSearch, hsome]
    simp [hlength, ← ht₁, hfree]
  · rw [hroot]
    exact h.tree.replace hx
  · have hsorted := List.pairwise_map.mpr h.sorted
    rw [← hkeys] at hsorted
    exact List.pairwise_map.mp hsorted
  · have herase := h.live.erase y
    rw [List.erase_append_right _ (fun hmem => hyl (List.mem_append_left _ hmem)),
      List.erase_cons_head] at herase
    simp only [hlive, List.erase_cons_tail (beq_eq_false_iff_ne.mpr hxy ▸ Bool.false_ne_true)]
    exact (herase.cons x).trans List.perm_middle.symm
  · simpa using h.room
  · have hmap : ∀ zs : List α, (∀ z ∈ zs, z ≠ x ∧ z ≠ y) →
        t₁.entries zs = (t.entries zs).map fun a =>
          if a = t.entry y then ⟨x, a.key, string ++ ['3', '3', '3']⟩ else a := by
      intro zs hzs
      rw [entries, entries, List.map_map]
      refine List.map_congr_left fun z hz => ?_
      have hne : t.entry z ≠ t.entry y := fun heq => (hzs z hz).2 (congrArg Entry.node heq)
      obtain ⟨hz₁, hz₂⟩ := hold z (hzs z hz).1
      have hentry : t₁.entry z = t.entry z := by simp [entry, hz₁, hz₂]
      rw [Function.comp_apply, if_neg hne, hentry]
    have hentry : t₁.entry x = ⟨x, t.key y, string ++ ['3', '3', '3']⟩ := by
      simp [entry, ht₁, record, hkey]
    have happend : ∀ (t : Mytree α) z, t.entries (l₁ ++ z :: l₂) =
        t.entries l₁ ++ t.entry z :: t.entries l₂ := fun t z => by simp [entries]
    have hleft := hmap l₁ fun z hz => hother z (List.mem_append_left _ hz)
    have hright := hmap l₂ fun z hz => hother z (List.mem_append_right _ hz)
    rw [happend t, List.map_append, List.map_cons, ← hleft, ← hright, if_pos rfl]
    exact (happend t₁ x).trans (by rw [hentry]; rfl)

theorem Stores.iter (h : Stores limit t xs) : t.testIterMytree limit =
    some (t, (t.entries xs).map (fun e => .key e.keystring) ++ [.dashes], 0) := by
  obtain ⟨tree, n, hrep, -, rfl⟩ := h.tree
  unfold testIterMytree
  rw [rbFirst_spec hrep h.room.le, Option.bind_some, forEach_rbNext hrep List.suffix_rfl h.room,
    Option.map_some, entries, List.map_map]
  rfl

/-- Each turn erases the first node, and the next one is the first then. -/
theorem freeLoop_spec (lines : List Line) (h : Stores limit t xs) :
    ∃ t', freeLoop limit t xs.head? lines =
        some (t', lines ++ (t.entries xs).map fun e => .key e.keystring) ∧
      IsTree t'.root [] ∧ t'.live.Perm [] := by
  induction xs generalizing limit t lines with
  | nil =>
    cases limit with
    | zero => exact absurd h.room (Nat.not_lt_zero _)
    | succ limit => exact ⟨t, by simp [freeLoop, entries], h.tree, h.live⟩
  | cons x xs ih =>
    cases limit with
    | zero => exact absurd h.room (Nat.not_lt_zero _)
    | succ limit =>
      have htree : IsTree t.root ([] ++ x :: xs) := h.tree
      obtain ⟨m', herase, t', hfree, hstores, hkeys, hstrings⟩ := h.erase_tree List.mem_cons_self
      rw [List.erase_cons_head] at hstores
      have hrest : Stores limit t' xs :=
        ⟨hstores.tree, hstores.sorted, hstores.live, Nat.lt_of_succ_lt_succ h.room⟩
      obtain ⟨t'', hloop, hroot, hlive⟩ := ih (lines ++ [.key (t.keystring x)]) hrest
      refine ⟨t'', ?_, hroot, hlive⟩
      rw [entries_congr fun y _ => ⟨congrFun hkeys y, congrFun hstrings y⟩] at hloop
      rw [List.head?_cons, freeLoop, htree.next h.room.le, Option.bind_some, herase,
        Option.bind_some, hfree, Option.bind_some, hstrings, hloop]
      simp [entries, entry]

theorem Stores.freeAll (h : Stores limit t xs) : ∃ t',
    t.testFreeAll limit =
        some (t', (t.entries xs).map (fun e => .key e.keystring) ++ [.xDashes], 0) ∧
      Stores limit t' [] := by
  obtain ⟨tree, n, hrep, -, hlist⟩ := h.tree
  have hfirst := rbFirst_spec hrep (hlist ▸ h.room.le)
  rw [hlist] at hfirst
  obtain ⟨t', hloop, hroot, hlive⟩ := freeLoop_spec [] h
  refine ⟨t', ?_, hroot, .nil, hlive, (Nat.zero_le _).trans_lt h.room⟩
  unfold testFreeAll
  rw [hfirst, Option.bind_some, hloop]
  rfl

/-! ## Runs -/

theorem step_stores {command : Command α} {l' : List (Entry α)} {answer : Answer}
    (h : Stores limit t xs) (hstep : Table.step limit (t.entries xs) command = some (l', answer)) :
    ∃ t' ys, t.step limit command = some (t', answer) ∧
      Stores limit t' ys ∧ t'.entries ys = l' := by
  cases command with
  | inster calloc key =>
    cases calloc with
    | none =>
      obtain ⟨rfl, rfl⟩ := Prod.mk.inj (Option.some.inj hstep)
      exact ⟨t, xs, rfl, h, rfl⟩
    | some x =>
      simp only [Table.step, map_node_entries] at hstep
      split at hstep
      · rename_i hgranted
        have hroom : xs.length + 1 < limit := by simpa [entries] using hgranted.2
        rcases h.inster (k := key) hgranted.1 hroom with
          ⟨e, hfind, t', hcall, hstores, hentries⟩ | ⟨hfind, t', ys, hcall, hstores, hentries⟩
        · rw [hfind] at hstep
          obtain ⟨rfl, rfl⟩ := Prod.mk.inj (Option.some.inj hstep)
          exact ⟨t', xs, hcall, hstores, hentries⟩
        · rw [hfind] at hstep
          obtain ⟨rfl, rfl⟩ := Prod.mk.inj (Option.some.inj hstep)
          exact ⟨t', ys, hcall, hstores, hentries⟩
      · cases hstep
  | search string =>
    simp only [Table.step, find_entries] at hstep
    simp only [Mytree.step, testSearchMytree, h.mytypeSearch]
    cases hsome : xs.find? fun x => t.key x = atol string with
    | none =>
      rw [hsome] at hstep
      obtain ⟨rfl, rfl⟩ := Prod.mk.inj (Option.some.inj hstep)
      exact ⟨t, xs, rfl, h, rfl⟩
    | some y =>
      rw [hsome] at hstep
      obtain ⟨rfl, rfl⟩ := Prod.mk.inj (Option.some.inj hstep)
      exact ⟨t, xs, rfl, h, rfl⟩
  | erase string =>
    obtain ⟨rfl, rfl⟩ := Prod.mk.inj (Option.some.inj hstep)
    exact h.erase
  | replace calloc string =>
    simp only [Table.step, find_entries, map_node_entries] at hstep
    cases hsome : xs.find? fun x => t.key x = atol string with
    | none =>
      rw [hsome] at hstep
      obtain ⟨rfl, rfl⟩ := Prod.mk.inj (Option.some.inj hstep)
      refine ⟨t, xs, ?_, h, rfl⟩
      rw [Mytree.step, testReplaceMynode, h.mytypeSearch, hsome]
      rfl
    | some y =>
      rw [hsome] at hstep
      cases calloc with
      | none =>
        obtain ⟨rfl, rfl⟩ := Prod.mk.inj (Option.some.inj hstep)
        refine ⟨t, xs, ?_, h, rfl⟩
        rw [Mytree.step, testReplaceMynode, h.mytypeSearch, hsome]
        rfl
      | some x =>
        simp only [Option.map_some] at hstep
        split at hstep
        · rename_i hgranted
          obtain ⟨rfl, rfl⟩ := Prod.mk.inj (Option.some.inj hstep)
          exact h.replace hgranted.1 hgranted.2 hsome
        · cases hstep
  | iter =>
    obtain ⟨rfl, rfl⟩ := Prod.mk.inj (Option.some.inj hstep)
    exact ⟨t, xs, h.iter, h, rfl⟩
  | freeAll =>
    obtain ⟨rfl, rfl⟩ := Prod.mk.inj (Option.some.inj hstep)
    obtain ⟨t', hcall, hstores⟩ := h.freeAll
    exact ⟨t', [], hcall, hstores, rfl⟩

/-- The program does what the table does, in every run, and what is
allocated is what is in the table. -/
theorem commands_stored {root : Memory α} {key : α → Int} {keystring : α → List Char}
    {commands : List (Command α)} {l : List (Entry α)} {answers : List Answer}
    (hroot : root.root = none) (hlimit : 0 < limit)
    (hcalls : calls (Table.step limit) [] commands = some (l, answers)) :
    ∃ t, calls (Mytree.step limit) ⟨root, key, keystring, []⟩ commands = some (t, answers) ∧
      (∃ tree n, Represents t.root tree ∧ WellColored tree .black n ∧ tree.toList.map t.entry = l) ∧
      l.Pairwise (·.key < ·.key) ∧ t.live.Perm (l.map (·.node)) := by
  have hstep : ∀ (t : Mytree α) l command l' answer,
      (∃ xs, Stores limit t xs ∧ t.entries xs = l) →
      Table.step limit l command = some (l', answer) →
        ∃ t', t.step limit command = some (t', answer) ∧
          ∃ xs, Stores limit t' xs ∧ t'.entries xs = l' := by
    rintro t _ command l' answer ⟨xs, hstores, rfl⟩ hcall
    obtain ⟨t', ys, hstep, hstores', hentries⟩ := step_stores hstores hcall
    exact ⟨t', hstep, ys, hstores', hentries⟩
  have hstart : Stores limit ⟨root, key, keystring, []⟩ ([] : List α) :=
    ⟨isTree_nil hroot, .nil, .refl _, hlimit⟩
  obtain ⟨t, hrun, xs, hstores, rfl⟩ := calls_simulation hstep ⟨[], hstart, rfl⟩ hcalls
  obtain ⟨tree, n, hrep, hb, rfl⟩ := hstores.tree
  refine ⟨t, hrun, ⟨tree, n, hrep, hb, rfl⟩, ?_, ?_⟩
  · exact List.pairwise_map.mpr hstores.sorted
  · rw [map_node_entries]
    exact hstores.live

theorem commands_stored_main : ∃ t, calls (Mytree.step 6)
    ⟨⟨fun _ => none, fun _ => .red, fun _ _ => none, none⟩, fun _ => 0, fun _ => [], []⟩
    [.inster (some 1) 10, .inster (some 2) 1, .inster (some 3) 5, .inster (some 4) 5,
      .search "10".toList, .erase "10".toList, .replace (some 6) "5".toList, .iter, .freeAll] =
    some (t, [([], 0), ([], 0), ([], 0), ([.insterError "5".toList], -1),
      ([.findKey "10".toList], 0),
      ([], 0), ([], 0), ([.key "1".toList, .key "5333".toList, .dashes], 0),
      ([.key "1".toList, .key "5333".toList, .xDashes], 0)]) :=
  (commands_stored (α := Nat) (l := []) rfl (by decide) rfl).imp fun _ h => h.1

end Mytree

end Training.RbTree
