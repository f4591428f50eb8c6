/-
Training.Epoll.ClientPoolTheorems — the slots in use are the clients.

Where no vacated slot has the descriptor of a call, the slots in use have
the live descriptors, each once (`State.Inv`). A lookup of another
descriptor then finds nothing exactly when no vacated slot has it, and the
call for one that a vacated slot has is wrong (`right_iff_unstale`).
-/
import Training.Epoll.ClientPool

namespace Training.Epoll

open Training.Lib

variable {s : State} {pool : ClientPool} {fd : Int} {addr : SockaddrIn} {n i : Nat}

structure State.Inv (s : State) : Prop where
  count : s.pool.count = s.live.length
  room : s.live.length ≤ maxEvents
  slots : ((Slots.live s.pool.clients s.live.length).map Client.fd).Perm s.live
  nodup : s.live.Nodup

theorem inv_init : State.Inv {} where
  count := rfl
  room := Nat.zero_le _
  slots := List.Perm.refl _
  nodup := List.nodup_nil

/-! ## Lookups -/

theorem State.Inv.exists_slot (h : s.Inv) (hfd : fd ∈ s.live) :
    ∃ i, i < s.live.length ∧ (s.pool.clients (i : Int)).fd = fd := by
  obtain ⟨client, hmem, hclient⟩ := List.mem_map.mp (h.slots.mem_iff.mpr hfd)
  obtain ⟨i, hi, hslot⟩ := Slots.mem_live.mp hmem
  exact ⟨i, hi, by rw [hslot, hclient]⟩

theorem State.Inv.find_live (h : s.Inv) (hi : i < s.live.length) :
    Slots.find Client.fd s.pool.clients maxEvents (s.pool.clients (i : Int)).fd = some i :=
  Slots.find_live (h.slots.nodup_iff.mpr h.nodup) hi h.room

/-- A descriptor that is not live is found exactly in the vacated slots. -/
theorem State.Inv.find_eq_none_iff (h : s.Inv) (hfd : fd ∉ s.live) :
    Slots.find Client.fd s.pool.clients maxEvents fd = none ↔ ¬ Vacated s.pool fd := by
  rw [Slots.find_eq_none]
  constructor
  · rintro hnone ⟨i, -, hi, hslot⟩
    exact hnone i hi hslot
  · intro hvacated i hi hslot
    by_cases hlive : i < s.live.length
    · have hmem : fd ∈ (Slots.live s.pool.clients s.live.length).map Client.fd :=
        List.mem_map.mpr ⟨_, Slots.mem_live.mpr ⟨i, hlive, rfl⟩, hslot⟩
      exact hfd (h.slots.mem_iff.mp hmem)
    · have hcount : s.pool.count ≤ i := by
        rw [h.count]
        omega
      exact hvacated ⟨i, hcount, hi, hslot⟩

theorem State.Inv.find_isSome (h : s.Inv) (hfd : fd ∈ s.live) : (findClient fd s.pool).isSome := by
  obtain ⟨i, hi, rfl⟩ := h.exists_slot hfd
  rw [findClient, h.find_live hi, Option.isSome_some]

/-! ## Steps -/

theorem State.Inv.add (h : s.Inv) (hfd : fd ∉ s.live) : (step s (.add fd addr)).Inv := by
  simp only [step, addClient]
  split
  case isTrue => exact h
  case isFalse hroom =>
    have hlt : s.live.length < maxEvents := by
      have := h.count
      omega
    refine ⟨?_, hlt, ?_, List.nodup_cons.mpr ⟨hfd, h.nodup⟩⟩
    · simp [h.count]
    · have hpush : Slots.live (Function.update s.pool.clients s.pool.count
          (initClient { s.pool.clients s.pool.count with fd := fd, addr := addr }))
          (s.live.length + 1) = Slots.live s.pool.clients s.live.length ++
          [initClient { s.pool.clients s.pool.count with fd := fd, addr := addr }] :=
        Slots.live_push (by rw [h.count, Function.update_self])
          (fun i hi => Function.update_of_ne (by rw [h.count]; omega) _ _)
      simp only [if_true, ClientPool.store, List.length_cons, hpush, List.map_append]
      exact (List.perm_append_singleton _ _).trans (h.slots.cons _)

theorem removeClient_of_find_eq_none
    (h : Slots.find Client.fd pool.clients maxEvents fd = none) : removeClient fd pool = pool := by
  rw [removeClient, h, Option.elim_none]

/-- What a removal leaves in the slots. -/
theorem vacate_slots (hcount : pool.count = (n + 1 : Nat)) (hi : i ≤ n) (j : Nat) (hj : j < n) :
    (pool.vacate i).clients j = if j = i then pool.clients n else pool.clients j := by
  have hlast : pool.count - 1 = (n : Int) := by omega
  simp only [ClientPool.vacate, hlast]
  by_cases hlt : (i : Int) < n
  · rw [if_pos hlt]
    by_cases hji : j = i
    · rw [if_pos hji, hji]
      exact Function.update_self ..
    · rw [if_neg hji]
      exact Function.update_of_ne (by omega) _ _
  · rw [if_neg hlt, if_neg (by omega)]

theorem State.Inv.remove (h : s.Inv) (hfd : fd ∈ s.live) : (step s (.remove fd)).Inv := by
  obtain ⟨i, hi, rfl⟩ := h.exists_slot hfd
  obtain ⟨n, hn⟩ := Nat.exists_eq_succ_of_ne_zero (Nat.ne_of_gt (Nat.zero_lt_of_lt hi))
  have hlen : (s.live.erase (s.pool.clients (i : Int)).fd).length = n := by
    rw [List.length_erase_of_mem hfd, hn]
    rfl
  have hroom := h.room
  have hcount : s.pool.count = (n + 1 : Nat) := by rw [h.count, hn]
  have hpool : removeClient (s.pool.clients (i : Int)).fd s.pool = s.pool.vacate i := by
    rw [removeClient, h.find_live hi, Option.elim_some]
  have hslots := vacate_slots hcount (by omega : i ≤ n)
  rw [step, hpool]
  refine ⟨?_, ?_, ?_, h.nodup.erase _⟩
  · rw [hlen]
    show s.pool.count - 1 = n
    omega
  · rw [hlen]
    omega
  · have hperm := (Slots.live_remove (by omega) hslots).map Client.fd
    have hall := h.slots
    rw [hn] at hall
    rw [hlen]
    exact (List.cons_perm_iff_perm_erase.mp (hperm.trans hall)).2

theorem State.Inv.right_find (h : s.Inv) :
    Right s (.find fd) ↔ Unstale s (.find fd) := by
  have hiff : Answers s (.find fd) ↔ Unstale s (.find fd) := by
    by_cases hfd : fd ∈ s.live
    · simp only [Answers, Unstale, hfd, iff_true, not_true_eq_false, false_implies]
      exact h.find_isSome hfd
    · simp only [Answers, Unstale, hfd, iff_false, not_false_eq_true, true_implies,
        ← h.find_eq_none_iff hfd]
      exact Option.not_isSome_iff_eq_none
  exact ⟨fun hright => hiff.mp hright.answers, fun hun => ⟨hiff.mpr hun, h.count⟩⟩

theorem State.Inv.right_remove (h : s.Inv) :
    Right s (.remove fd) ↔ Unstale s (.remove fd) := by
  by_cases hfd : fd ∈ s.live
  · exact iff_of_true ⟨fun hnot => absurd hfd hnot, (h.remove hfd).count⟩
      fun hnot => absurd hfd hnot
  · have hlive : (step s (.remove fd)).live = s.live := List.erase_of_not_mem hfd
    constructor
    · rintro ⟨hsame, -⟩ -
      rw [← h.find_eq_none_iff hfd]
      refine Option.eq_none_iff_forall_ne_some.mpr fun i hi => ?_
      have hcount : (s.pool.vacate i).count = s.pool.count := by
        have hpool := hsame hfd
        rw [removeClient, hi, Option.elim_some] at hpool
        rw [hpool]
      have hless : (s.pool.vacate i).count = s.pool.count - 1 := rfl
      omega
    · intro hun
      have hsame : removeClient fd s.pool = s.pool :=
        removeClient_of_find_eq_none ((h.find_eq_none_iff hfd).mpr (hun hfd))
      refine ⟨fun _ => hsame, ?_⟩
      rw [hlive, step, hsame]
      exact h.count

theorem State.Inv.remove_of_unstale (h : s.Inv) (hun : Unstale s (.remove fd)) :
    (step s (.remove fd)).Inv := by
  by_cases hfd : fd ∈ s.live
  · exact h.remove hfd
  · have hsame : step s (.remove fd) = s := by
      rw [step, List.erase_of_not_mem hfd,
        removeClient_of_find_eq_none ((h.find_eq_none_iff hfd).mpr (hun hfd))]
    rw [hsame]
    exact h

/-- One call is right exactly when it meets the condition. -/
theorem State.Inv.step_iff (h : s.Inv) (e : Event) (hg : Granted s e) :
    (Right s e ↔ Unstale s e) ∧ (Unstale s e → (step s e).Inv) := by
  cases e with
  | add fd addr =>
    have hadd := @State.Inv.add s fd addr h hg.2
    exact ⟨iff_of_true ⟨trivial, hadd.count⟩ trivial, fun _ => hadd⟩
  | remove fd => exact ⟨h.right_remove, h.remove_of_unstale⟩
  | find fd => exact ⟨h.right_find, fun _ => h⟩

/-! ## Runs -/

/-- In a run of calls each of them is right, as far as the calls before it
are, exactly when no descriptor that is looked up or removed without being
live is in a vacated slot. -/
theorem right_iff_unstale (es : List Event) (hg : Along step Granted {} es) :
    Along step Right {} es ↔ Along step Unstale {} es :=
  along_iff_along (fun _ e h hg => h.step_iff e hg) hg inv_init

/-- The slot of the first client is filled with the second one, and three
calls have a descriptor that is not live. -/
def addRemoveFind : List Event :=
  [.add 5 {}, .add 6 {}, .remove 5, .find 6, .find 5, .remove 7, .find 7]

theorem right_iff_unstale_addRemove :
    Along step Right {} addRemoveFind ↔ Along step Unstale {} addRemoveFind := by
  have hgranted : Along step Granted {} addRemoveFind :=
    ⟨⟨by decide, by decide⟩, ⟨by decide, by decide⟩, (by decide : (0 : Int) < 5),
      (by decide : (0 : Int) < 6), (by decide : (0 : Int) < 5), (by decide : (0 : Int) < 7),
      (by decide : (0 : Int) < 7), trivial⟩
  exact right_iff_unstale _ hgranted

/-- A client that was removed is found. -/
theorem found_removed :
    ∃ es, Along step Granted {} es ∧ ¬ Along step Right {} es := by
  refine ⟨[.add 5 {}, .remove 5, .find 5],
    ⟨⟨by decide, by decide⟩, (by decide : (0 : Int) < 5), (by decide : (0 : Int) < 5), trivial⟩, ?_⟩
  rintro ⟨-, -, ⟨hfind, -⟩, -⟩
  exact absurd (hfind.mp (by decide +kernel)) (by decide)

end Training.Epoll
