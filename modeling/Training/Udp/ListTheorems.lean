/-
Training.Udp.ListTheorems — the list operations of the protocol.

`seq_insert_to_list` is Mathlib's `orderedInsert` for the strict order on
sequence numbers (`seqInsertToList_eq`), so what it does to the members
comes from there. What the protocol relies on beyond that is the order:
inserting a NEW number keeps a list strictly increasing
(`pairwise_seqInsertToList`). Inserting one that is already there does
not: it goes next to the old one (`not_pairwise_seqInsertToList`).

In a strictly increasing list the iterator `find_unack` returns splits
the list at the number (`findUnack_eq`).
-/
import Mathlib.Data.List.Sort
import Mathlib.Data.List.TakeWhile
import Training.Udp.Protocol

namespace Training.Udp

variable {α : Type} {seq : α → Nat} {data : α} {list : List α}

/-! ## `seq_insert_to_list` -/

theorem seqInsertToList_eq (seq : α → Nat) (data : α) (list : List α) :
    seqInsertToList seq data list = list.orderedInsert (fun a b => seq a < seq b) data := by
  induction list with
  | nil => rfl
  | cons position rest ih =>
    rw [seqInsertToList, List.orderedInsert_cons, ih]

theorem perm_seqInsertToList (seq : α → Nat) (data : α) (list : List α) :
    (seqInsertToList seq data list).Perm (data :: list) := by
  rw [seqInsertToList_eq]
  exact List.perm_orderedInsert _ _ _

theorem mem_seqInsertToList {x : α} :
    x ∈ seqInsertToList seq data list ↔ x = data ∨ x ∈ list := by
  rw [(perm_seqInsertToList seq data list).mem_iff, List.mem_cons]

theorem map_seqInsertToList (seq : α → Nat) (data : α) (list : List α) :
    (seqInsertToList seq data list).map seq = seqInsertToList id (seq data) (list.map seq) := by
  induction list with
  | nil => rfl
  | cons position rest ih =>
    simp only [seqInsertToList, List.map_cons, id]
    split
    · rfl
    · rw [List.map_cons, ih]

/-- Inserting a new number keeps the list strictly increasing. -/
theorem pairwise_seqInsertToList {n : Nat} {list : List Nat} (h : list.Pairwise (· < ·))
    (hn : n ∉ list) : (seqInsertToList id n list).Pairwise (· < ·) := by
  induction list with
  | nil => simp [seqInsertToList]
  | cons m rest ih =>
    obtain ⟨hm, hrest⟩ := List.pairwise_cons.mp h
    have hne : n ≠ m := fun heq => hn (heq ▸ List.mem_cons_self)
    simp only [seqInsertToList, id]
    split
    · rename_i hlt
      refine List.pairwise_cons.mpr ⟨fun x hx => ?_, h⟩
      rcases List.mem_cons.mp hx with rfl | hx
      · exact hlt
      · exact Nat.lt_trans hlt (hm x hx)
    · refine List.pairwise_cons.mpr ⟨fun x hx => ?_, ih hrest fun h => hn (.tail _ h)⟩
      rcases mem_seqInsertToList.mp hx with rfl | hx
      · omega
      · exact hm x hx

/-- Inserting a number that is there makes it occur twice. -/
theorem not_pairwise_seqInsertToList {n : Nat} {list : List Nat} (hn : n ∈ list) :
    ¬ (seqInsertToList id n list).Pairwise (· < ·) := by
  intro h
  have hnodup : (seqInsertToList id n list).Nodup := h.imp Nat.ne_of_lt
  rw [(perm_seqInsertToList id n list).nodup_iff] at hnodup
  exact (List.nodup_cons.mp hnodup).1 hn

/-! ## `find_unack` and `find_packet` -/

theorem findUnack_head {list next : List Nat} {ack unack : Nat}
    (h : findUnack list ack = unack :: next) : unack = ack := by
  have hhead := List.head?_dropWhile_not (· != ack) list
  unfold findUnack at h
  rw [h] at hhead
  simpa using hhead

theorem findUnack_eq_nil {list : List Nat} {ack : Nat} :
    findUnack list ack = [] ↔ ack ∉ list := by
  unfold findUnack
  rw [List.dropWhile_eq_nil_iff]
  constructor
  · intro h hmem
    simpa using h ack hmem
  · intro h x hx
    simp only [bne_iff_ne]
    rintro rfl
    exact h hx

theorem findPacket_seq {list : List Packet} {ack : Nat} {position : Packet}
    (h : findPacket list ack = some position) : position.seq = ack := by
  simpa using List.find?_some h

theorem findPacket_isSome {list : List Packet} {ack : Nat} :
    (findPacket list ack).isSome ↔ ack ∈ list.map Packet.seq := by
  simp [findPacket, List.find?_isSome]

/-- Removing the first packet with a number removes the number. -/
theorem map_eraseP_seq (list : List Packet) (ack : Nat) :
    (list.eraseP (·.seq == ack)).map Packet.seq = (list.map Packet.seq).erase ack := by
  induction list with
  | nil => rfl
  | cons p rest ih =>
    rw [List.map_cons, List.erase_cons, List.eraseP_cons]
    cases hp : p.seq == ack
    · simp [ih]
    · simp

/-- Replacing a packet by one with its number keeps the numbers. -/
theorem map_set_seq {list : List Packet} {place : Nat} {position packet : Packet}
    (h : list[place]? = some position) (hseq : packet.seq = position.seq) :
    (list.set place packet).map Packet.seq = list.map Packet.seq := by
  obtain ⟨hlt, rfl⟩ := List.getElem?_eq_some_iff.mp h
  have hlt' : place < (list.map Packet.seq).length := by simpa using hlt
  rw [List.map_set, hseq, ← List.getElem_map Packet.seq (h := hlt'), List.set_getElem_self]

end Training.Udp
