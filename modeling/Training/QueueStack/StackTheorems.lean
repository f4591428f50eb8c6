/-
Training.QueueStack.StackTheorems — the two queues are a bounded stack.

Between the operations the first queue holds the stack from the place 0
on, its bottom at the front, and the second queue is empty (`Represents`).
A `pop` moves all but the last value to the second queue, which starts at
the place 0 again because it was empty, and the queues change places. So
the front never drifts, and the rear is at the end of the array exactly
when it is full.
-/
import Training.QueueStack.Stack

namespace Training.QueueStack

open Training.Lib Training.Lib.Arrays

variable {q : Queue} {s : Stack} {t : Lifo} {xs : List Int} {x value : Int} {out : String}
  {i fuel : Nat}

/-- The queue holds `xs`, from the place `i` on. -/
structure Holds (q : Queue) (i : Nat) (xs : List Int) : Prop where
  fits : i + xs.length ≤ maxSize
  cells : (q.data.drop i).take xs.length = xs
  empty : xs = [] → q.front = -1 ∧ q.rear = -1
  ends : xs ≠ [] → q.front = i ∧ q.rear + 1 = i + xs.length

theorem holds_nil (hi : i ≤ maxSize) (hfront : q.front = -1) (hrear : q.rear = -1) :
    Holds q i [] where
  fits := hi
  cells := List.take_zero
  empty _ := ⟨hfront, hrear⟩
  ends h := absurd rfl h

theorem Holds.isEmpty_iff (h : Holds q i xs) : isEmpty q = true ↔ xs = [] := by
  rw [isEmpty, decide_eq_true_eq]
  constructor
  · intro hfront
    by_contra hne
    have hends := h.ends hne
    omega
  · intro hnil
    exact (h.empty hnil).1

theorem Holds.stored_eq (h : Holds q i xs) : stored q = xs := by
  unfold stored
  by_cases hnil : xs = []
  · rw [if_pos (h.isEmpty_iff.mpr hnil), hnil]
  · obtain ⟨hfront, hrear⟩ := h.ends hnil
    rw [if_neg (mt h.isEmpty_iff.mp hnil), hfront, Int.toNat_natCast,
      show (q.rear - i + 1).toNat = xs.length by omega, h.cells]

/-- A write behind the last value. -/
theorem take_drop_set {data : List Int} (h : (data.drop i).take xs.length = xs)
    (hroom : i + xs.length < data.length) (value : Int) :
    ((data.set (i + xs.length) value).drop i).take (xs.length + 1) = xs ++ [value] := by
  have hset : (data.set (i + xs.length) value).drop i = (data.drop i).set xs.length value := by
    rw [List.drop_set, if_neg (by omega), Nat.add_sub_cancel_left]
  have hlen : xs.length < ((data.drop i).set xs.length value).length := by
    simp only [List.length_set, List.length_drop]
    omega
  rw [hset, List.take_succ_eq_append_getElem hlen, List.take_set,
    List.set_eq_of_length_le (List.length_take_le _ _), h, List.getElem_set_self]

theorem enqueue_spec (h : Holds q i xs) (hroom : i + xs.length < maxSize) (h0 : xs = [] → i = 0)
    (value : Int) (out : String) :
    ∃ q', enqueue q value out = some (q', out) ∧ Holds q' i (xs ++ [value]) := by
  have hcells := take_drop_set h.cells (q.length_data.symm ▸ hroom) value
  have hfits : i + (xs ++ [value]).length ≤ maxSize := by
    rw [List.length_append, List.length_singleton]
    omega
  have hplace : ((i + xs.length : Nat) : Int) < maxSize := by exact_mod_cast hroom
  by_cases hnil : xs = []
  · obtain ⟨hfront, hrear⟩ := h.empty hnil
    obtain rfl : i = 0 := h0 hnil
    subst hnil
    have hfull : q.rear ≠ (maxSize : Int) - 1 := by
      rw [hrear]
      decide
    rw [enqueue, if_neg hfull, h.isEmpty_iff.mpr rfl]
    refine ⟨_, rfl, hfits, ?_, by simp, ?_⟩
    · simpa using hcells
    · simp
  · obtain ⟨hfront, hrear⟩ := h.ends hnil
    have hplaced : q.rear + 1 = ((i + xs.length : Nat) : Int) := by simpa using hrear
    have hinside : 0 ≤ q.rear + 1 ∧ q.rear + 1 < maxSize := by omega
    have hnat : (q.rear + 1).toNat = i + xs.length := by omega
    rw [enqueue, if_neg (by omega), eq_false_of_ne_true (mt h.isEmpty_iff.mp hnil)]
    simp only [Bool.false_eq_true, if_false, Queue.write, if_pos hinside, Option.bind_eq_bind,
      Option.bind_some]
    refine ⟨_, rfl, hfits, ?_, by simp, fun _ => ⟨hfront, ?_⟩⟩
    · simpa [hnat] using hcells
    · simp only [List.length_append, List.length_singleton]
      omega

/-- A full queue takes nothing. -/
theorem enqueue_full (h : Holds q 0 xs) (hfull : xs.length = maxSize) (value : Int)
    (out : String) : enqueue q value out = some (q, out ++ "Queue is full\n") := by
  have hne : xs ≠ [] := by
    rintro rfl
    exact absurd hfull (by decide)
  have hends := h.ends hne
  exact if_pos (by omega)

theorem dequeue_spec (h : Holds q i (x :: xs)) (out : String) :
    ∃ q', dequeue q out = some (x, q', out) ∧ Holds q' (i + 1) xs := by
  obtain ⟨hfront, hrear⟩ := h.ends (List.cons_ne_nil x xs)
  have hfits := h.fits
  simp only [List.length_cons] at hrear hfits
  obtain ⟨rest, hdrop, htake⟩ : ∃ rest, q.data.drop i = x :: rest ∧ rest.take xs.length = xs := by
    have hcells := h.cells
    cases hdata : q.data.drop i with
    | nil => simp [hdata] at hcells
    | cons y rest =>
      rw [hdata, List.length_cons, List.take_succ_cons] at hcells
      obtain ⟨rfl, htake⟩ := List.cons.inj hcells
      exact ⟨rest, rfl, htake⟩
  have hread : read q.data q.front = some x := by
    rw [hfront, read_natCast, ← List.head?_drop, hdrop]
    rfl
  have hcells : (q.data.drop (i + 1)).take xs.length = xs := by
    rw [← List.tail_drop, hdrop]
    exact htake
  rw [dequeue, if_neg (mt h.isEmpty_iff.mp (List.cons_ne_nil x xs)), hread]
  by_cases hlast : q.front = q.rear
  · have hnil : xs = [] := List.length_eq_zero_iff.mp (by omega)
    refine ⟨{ q with front := -1, rear := -1 }, by simp [hlast], ?_⟩
    rw [hnil]
    exact holds_nil (by omega) rfl rfl
  · refine ⟨{ q with front := q.front + 1 }, by simp [hlast], by omega, hcells, ?_, fun _ => ?_⟩
    · intro hnil
      rw [hnil, List.length_nil] at hrear
      omega
    · dsimp only
      push_cast
      omega

/-! ## A `pop` -/

/-- The values on the way: the first ones are in the second queue. -/
def Moving (xs : List Int) (out : String) (s : Stack) : Prop :=
  ∃ moved rest, moved ++ rest = xs ∧ rest ≠ [] ∧ Holds s.q1 moved.length rest ∧
    Holds s.q2 0 moved ∧ s.out = out

theorem moveOne_spec (hlen : xs.length ≤ maxSize) (h : Moving xs out s) :
    some (decide (s.q1.front ≠ s.q1.rear)) = some false ∨
      some (decide (s.q1.front ≠ s.q1.rear)) = some true ∧
        ∃ s', moveOne s = some s' ∧ Moving xs out s' ∧
          (s'.q1.rear - s'.q1.front).toNat < (s.q1.rear - s.q1.front).toNat := by
  obtain ⟨moved, rest, rfl, hne, h1, h2, rfl⟩ := h
  obtain ⟨hfront, hrear⟩ := h1.ends hne
  by_cases hlast : s.q1.front = s.q1.rear
  · exact .inl (by simp [hlast])
  · refine .inr ⟨by simp [hlast], ?_⟩
    cases rest with
    | nil => exact absurd rfl hne
    | cons x rest =>
      simp only [List.length_append, List.length_cons] at hlen hrear
      obtain ⟨q1, hdeq, h1'⟩ := dequeue_spec h1 s.out
      obtain ⟨q2, henq, h2'⟩ := enqueue_spec h2 (by omega) (fun _ => rfl) x s.out
      have hrest : rest ≠ [] := by
        rintro rfl
        simp only [List.length_nil] at hrear
        omega
      obtain ⟨hfront', hrear'⟩ := h1'.ends hrest
      refine ⟨{ q1, q2, out := s.out }, by simp [moveOne, hdeq, henq],
        ⟨moved ++ [x], rest, by simp, hrest, by simpa using h1', h2', rfl⟩, ?_⟩
      dsimp only
      push_cast at hfront' hrear'
      omega

theorem pop_spec (h1 : Holds s.q1 0 (xs ++ [x])) (h2 : Holds s.q2 0 []) (hfuel : maxSize ≤ fuel) :
    ∃ s', pop fuel s = some (x, s') ∧ Holds s'.q1 0 xs ∧ Holds s'.q2 0 [] ∧ s'.out = s.out := by
  have hne : xs ++ [x] ≠ [] := by simp
  have hlen : (xs ++ [x]).length ≤ maxSize := by simpa using h1.fits
  obtain ⟨hfront, hrear⟩ := h1.ends hne
  have hstart : Moving (xs ++ [x]) s.out s := ⟨[], xs ++ [x], rfl, hne, h1, h2, rfl⟩
  have hpos : 0 < maxSize := by decide
  have hless : (s.q1.rear - s.q1.front).toNat < fuel := by omega
  obtain ⟨s₁, hloop, ⟨moved, rest, hsplit, hrest, hq1, hq2, hout⟩, hend⟩ :=
    loop_spec (fun s : Stack => (s.q1.rear - s.q1.front).toNat)
      (fun s hs => moveOne_spec hlen hs) hstart hless
  have hlast : s₁.q1.front = s₁.q1.rear := by simpa using hend
  obtain ⟨hfront', hrear'⟩ := hq1.ends hrest
  obtain ⟨y, rfl⟩ : ∃ y, rest = [y] := List.length_eq_one_iff.mp (by omega)
  obtain ⟨rfl, hy⟩ := List.append_inj' hsplit rfl
  obtain rfl : y = x := by simpa using hy
  obtain ⟨q, hdeq, hq⟩ := dequeue_spec hq1 s₁.out
  refine ⟨{ q1 := s₁.q2, q2 := q, out := s₁.out }, ?_, hq2, ?_, hout⟩
  · rw [pop, if_neg (mt h1.isEmpty_iff.mp hne), hloop]
    simp [hdeq]
  · obtain ⟨hfrontq, hrearq⟩ := hq.empty rfl
    exact holds_nil (Nat.zero_le _) hfrontq hrearq

/-! ## The stack -/

structure Represents (s : Stack) (t : Lifo) : Prop where
  values : Holds s.q1 0 t.values.reverse
  empty : Holds s.q2 0 []
  out : s.out = t.out

theorem represents_start (q1 q2 : Queue) :
    Represents (start q1 q2) { values := [], out := "" } where
  values := holds_nil (Nat.zero_le _) rfl rfl
  empty := holds_nil (Nat.zero_le _) rfl rfl
  out := rfl

theorem push_full (h : Represents s t) (hfull : t.values.length = maxSize) (value : Int) :
    push s value = some { s with out := s.out ++ "Queue is full\n" } := by
  rw [push, enqueue_full h.values (by simpa using hfull)]
  rfl

theorem push_room (h : Represents s t) (hroom : t.values.length ≠ maxSize) (value : Int) :
    ∃ s', push s value = some s' ∧ Represents s' { t with values := value :: t.values } := by
  have hfits := h.values.fits
  simp only [List.length_reverse] at hfits
  obtain ⟨q', henq, hq'⟩ := enqueue_spec h.values (by simp; omega) (fun _ => rfl) value s.out
  refine ⟨{ s with q1 := q' }, by simp [push, henq], ?_, h.empty, h.out⟩
  simpa using hq'

theorem step_spec (hfuel : maxSize ≤ fuel) (s : Stack) (t : Lifo) (op : Op) (t' : Lifo)
    (answer : Option Int) (h : Represents s t) (hstep : t.step op = some (t', answer)) :
    ∃ s', step fuel s op = some (s', answer) ∧ Represents s' t' := by
  cases op with
  | push value =>
    simp only [Lifo.step] at hstep
    split at hstep
    · rename_i hfull
      obtain ⟨rfl, rfl⟩ := Prod.mk.inj (Option.some.inj hstep)
      exact ⟨{ s with out := s.out ++ "Queue is full\n" }, by simp [step, push_full h hfull],
        h.values, h.empty, by simp [h.out]⟩
    · rename_i hroom
      obtain ⟨rfl, rfl⟩ := Prod.mk.inj (Option.some.inj hstep)
      obtain ⟨s', hpush, hs'⟩ := push_room h hroom value
      exact ⟨s', by simp [step, hpush], hs'⟩
  | pop =>
    obtain ⟨values, out⟩ := t
    cases values with
    | nil =>
      obtain ⟨rfl, rfl⟩ := Prod.mk.inj (Option.some.inj hstep)
      have hempty := h.values.isEmpty_iff.mpr rfl
      exact ⟨{ s with out := s.out ++ "Stack is empty\n" }, by simp [step, pop, hempty],
        h.values, h.empty, by simp [h.out]⟩
    | cons x xs =>
      obtain ⟨rfl, rfl⟩ := Prod.mk.inj (Option.some.inj hstep)
      have hvalues := h.values
      rw [List.reverse_cons] at hvalues
      obtain ⟨s', hpop, hq1, hq2, hout⟩ := pop_spec hvalues h.empty hfuel
      exact ⟨s', by simp [step, hpop], hq1, hq2, hout.trans h.out⟩

theorem Lifo.exists_step (t : Lifo) (op : Op) : ∃ t' answer, t.step op = some (t', answer) := by
  cases op with
  | push value =>
    simp only [Lifo.step]
    split
    · exact ⟨_, _, rfl⟩
    · exact ⟨_, _, rfl⟩
  | pop =>
    obtain ⟨values, out⟩ := t
    cases values with
    | nil => exact ⟨_, _, rfl⟩
    | cons x xs => exact ⟨_, _, rfl⟩

/-- In every sequence of operations the two queues answer and print as a
stack of at most `maxSize` values does, and keep its values. -/
theorem stack_refines_lifo (q1 q2 : Queue) : ∃ turns, ∀ fuel, turns ≤ fuel → ∀ ops : List Op,
    ∃ s t answers, calls (step fuel) (start q1 q2) ops = some (s, answers) ∧
      calls Lifo.step { values := [], out := "" } ops = some (t, answers) ∧
      stored s.q1 = t.values.reverse ∧ stored s.q2 = [] ∧ s.out = t.out ∧
      ∀ value, (t.values.length = maxSize →
          push s value = some { s with out := s.out ++ "Queue is full\n" }) ∧
        (t.values.length ≠ maxSize → ∃ s', push s value = some s' ∧
          stored s'.q1 = stored s.q1 ++ [value] ∧ s'.out = s.out) := by
  refine ⟨maxSize, fun fuel hfuel ops => ?_⟩
  obtain ⟨t, answers, hlifo⟩ := exists_calls Lifo.exists_step { values := [], out := "" } ops
  obtain ⟨s, hstack, h⟩ := calls_simulation (step_spec hfuel) (represents_start q1 q2) hlifo
  refine ⟨s, t, answers, hstack, hlifo, h.values.stored_eq, h.empty.stored_eq, h.out, ?_⟩
  intro value
  refine ⟨fun hfull => push_full h hfull value, fun hroom => ?_⟩
  obtain ⟨s', hpush, h'⟩ := push_room h hroom value
  refine ⟨s', hpush, ?_, h'.out.trans h.out.symm⟩
  rw [h'.values.stored_eq, h.values.stored_eq, List.reverse_cons]

end Training.QueueStack
