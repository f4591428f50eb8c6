/-
Training.MinimumStack.AgreementTheorems — both minimum stacks do what the
reference does.

One stack keeps the minima in a stack of their own (`minima`): an element
goes there if nothing below it is less, so that equal minima are there as
often as they are in the stack, and what is popped is popped there too if
it is equal to the top (`minima_cons`). The other one keeps the minimum of
each element and those below it (`lowest`). The top of either is the
least element (`minima_head`, `lowest_head`).
-/
import Training.Lib.Stacked
import Training.MinimumStack.Stacks

namespace Training.MinimumStack

open Training.Lib Training.Lib.Arrays

variable {xs : List Int} {x val : Int} {data : List (Option Int)}

/-- What `read` finds at the top. -/
theorem read_top (h : Stacked data (x :: xs)) : (read data xs.length).join = some x := by
  rw [read_natCast, h.top]
  rfl

theorem write_top (hroom : xs.length < data.length) (x : Int) :
    write data xs.length (some x) = some (data.set xs.length (some x)) :=
  write_eq hroom (some x)

/-- What a call of the reference does. -/
theorem step_cases {op : Op} {xs' : List Int} {out : Option Int}
    (h : step xs op = some (xs', out)) :
    (∃ val, op = .push val ∧ xs.length < maxSize ∧ xs' = val :: xs ∧ out = none) ∨
    (op = .pop ∧ xs' = xs.tail ∧ out = none) ∨
    (∃ x ys, op = .top ∧ xs = x :: ys ∧ xs' = xs ∧ out = some x) ∨
    (∃ m, op = .getMin ∧ xs.min? = some m ∧ xs' = xs ∧ out = some m) := by
  cases op with
  | push val =>
    rw [step] at h
    by_cases hroom : xs.length < maxSize
    · rw [if_pos hroom] at h
      obtain ⟨rfl, rfl⟩ := Prod.mk.inj (Option.some.inj h)
      exact .inl ⟨val, rfl, hroom, rfl, rfl⟩
    · rw [if_neg hroom] at h
      cases h
  | pop =>
    obtain ⟨rfl, rfl⟩ := Prod.mk.inj (Option.some.inj h)
    exact .inr (.inl ⟨rfl, rfl, rfl⟩)
  | top =>
    obtain ⟨x, hx, heq⟩ := Option.map_eq_some_iff.mp h
    obtain ⟨rfl, rfl⟩ := Prod.mk.inj heq
    obtain ⟨ys, hys⟩ := List.head?_eq_some_iff.mp hx
    exact .inr (.inr (.inl ⟨x, ys, rfl, hys, rfl, rfl⟩))
  | getMin =>
    obtain ⟨m, hm, heq⟩ := Option.map_eq_some_iff.mp h
    obtain ⟨rfl, rfl⟩ := Prod.mk.inj heq
    exact .inr (.inr (.inr ⟨m, rfl, hm, rfl, rfl⟩))

/-! ## The minima -/

/-- The stack of the minima: an element is pushed if the top is not less. -/
def minima : List Int → List Int
  | [] => []
  | x :: xs => if ∀ m ∈ (minima xs).head?, x ≤ m then x :: minima xs else minima xs

/-- The minimum of each element and those below it. -/
def lowest : List Int → List Int
  | [] => []
  | x :: xs => ((lowest xs).head?.elim x fun m => Fixed.min m x) :: lowest xs

theorem min?_cons (x : Int) (xs : List Int) :
    (x :: xs).min? = some (xs.min?.elim x fun m => if m < x then m else x) := by
  rw [List.min?_cons]
  congr 1
  cases xs.min? with
  | none => rfl
  | some m =>
    simp only [Option.elim_some, Int.min_def]
    split <;> split <;> omega

theorem lowest_head (xs : List Int) : (lowest xs).head? = xs.min? := by
  induction xs with
  | nil => rfl
  | cons x xs ih =>
    rw [lowest, List.head?_cons, ih, min?_cons]
    rfl

@[simp] theorem length_lowest (xs : List Int) : (lowest xs).length = xs.length := by
  induction xs with
  | nil => rfl
  | cons x xs ih => simp [lowest, ih]

theorem minima_head (xs : List Int) : (minima xs).head? = xs.min? := by
  induction xs with
  | nil => rfl
  | cons x xs ih =>
    rw [minima, ih, min?_cons]
    cases hmin : xs.min? with
    | none => simp
    | some m =>
      by_cases hle : x ≤ m
      · have hnot : ¬m < x := by omega
        simp [hle, hnot]
      · have hlt : m < x := by omega
        simp [hle, hlt, ih, hmin]

theorem length_minima_le (xs : List Int) : (minima xs).length ≤ xs.length := by
  induction xs with
  | nil => exact Nat.le_refl 0
  | cons x xs ih =>
    rw [minima]
    split
    · simpa using ih
    · simp
      omega

/-- The top of the minima is popped with an element that is equal to it,
and with no other. -/
theorem minima_cons (x : Int) (xs : List Int) : ∃ m, (minima (x :: xs)).head? = some m ∧
    (x = m → minima (x :: xs) = m :: minima xs) ∧ (x ≠ m → minima (x :: xs) = minima xs) := by
  by_cases hle : ∀ m ∈ (minima xs).head?, x ≤ m
  · have hpush : minima (x :: xs) = x :: minima xs := by rw [minima, if_pos hle]
    exact ⟨x, by rw [hpush]; rfl, fun _ => hpush, fun hne => absurd rfl hne⟩
  · have hkeep : minima (x :: xs) = minima xs := by rw [minima, if_neg hle]
    obtain ⟨m, hm⟩ : ∃ m, (minima xs).head? = some m := by
      by_contra hnone
      exact hle fun m hm => absurd ⟨m, hm⟩ hnone
    refine ⟨m, by rw [hkeep, hm], fun heq => ?_, fun _ => hkeep⟩
    refine absurd (fun m' hm' => ?_) hle
    rw [hm] at hm'
    obtain rfl := Option.some.inj hm'
    omega

/-! ## The stack of the minima -/

namespace Growing

/-- A stack that has room for what it holds, and did not grow beyond what
`n` elements need. -/
structure Good (n : Nat) (s : Stack) (xs : List Int) : Prop where
  stacked : Stacked s.data xs
  top : s.top = (xs.length : Int) - 1
  capacity : s.capacity = s.data.length
  pos : 0 < s.data.length
  bound : s.data.length ≤ 2 * n

variable {n : Nat} {s : Stack} {obj : MinStack}

theorem good_stackInit (hn : 2 ≤ n) : Good n stackInit [] where
  stacked := stacked_nil _
  top := rfl
  capacity := rfl
  pos := by decide
  bound := by
    rw [show stackInit.data.length = 4 from rfl]
    omega

theorem Good.isEmpty (h : Good n s xs) : stackEmpty s = decide (xs = []) := by
  have htop := h.top
  cases xs with
  | nil => simpa [stackEmpty] using htop
  | cons x xs =>
    simp only [List.length_cons] at htop
    simp only [stackEmpty, reduceCtorEq, decide_false, decide_eq_false_iff_not]
    omega

/-- A full stack is resized, and has room then. -/
theorem Good.exists_room (h : Good n s xs) (hn : xs.length < n) (hmax : 2 * (n : Int) ≤ intMax) :
    ∃ s', (if s.top = s.capacity - 1 then stackResize s else some s) = some s' ∧ Good n s' xs ∧
      xs.length < s'.data.length := by
  have htop := h.top
  have hcap := h.capacity
  have hpos := h.pos
  by_cases hfull : s.top = s.capacity - 1
  · have hlen : xs.length = s.data.length := by omega
    have hfits : s.capacity * growthFactor ≤ intMax := by
      unfold growthFactor
      omega
    rw [if_pos hfull, stackResize, if_pos hfits]
    refine ⟨_, rfl, ⟨h.stacked.grow _, htop, ?_, ?_, ?_⟩, ?_⟩
    · simp only [List.length_append, List.length_replicate, growthFactor]
      omega
    · simp only [List.length_append, List.length_replicate]
      omega
    · simp only [List.length_append, List.length_replicate, growthFactor]
      omega
    · simp only [List.length_append, List.length_replicate, growthFactor]
      omega
  · have hle := h.stacked.room
    exact ⟨s, if_neg hfull, h, by omega⟩

theorem stackPush_spec (h : Good n s xs) (hn : xs.length < n) (hmax : 2 * (n : Int) ≤ intMax)
    (val : Int) : ∃ s', stackPush s val = some s' ∧ Good n s' (val :: xs) := by
  obtain ⟨s₁, hroom, h₁, hlt⟩ := h.exists_room hn hmax
  have htop := h₁.top
  have hwrite : write s₁.data (s₁.top + 1) (some val) =
      some (s₁.data.set xs.length (some val)) := by
    rw [show s₁.top + 1 = xs.length by omega]
    exact write_top hlt val
  rw [stackPush, hroom]
  simp only [Option.bind_eq_bind, Option.bind_some, hwrite]
  refine ⟨_, rfl, h₁.stacked.push hlt val, ?_, ?_, ?_, ?_⟩
  · simp only [List.length_cons]
    omega
  · simpa using h₁.capacity
  · simpa using h₁.pos
  · simpa using h₁.bound

theorem stackPeek_spec (h : Good n s (x :: xs)) : stackPeek s = some x := by
  have htop : s.top = xs.length := by simpa using h.top
  rw [stackPeek, h.isEmpty, htop, read_top h.stacked]
  rfl

theorem stackPop_spec (h : Good n s (x :: xs)) :
    ∃ s', stackPop s = some (x, s') ∧ Good n s' xs := by
  have htop : s.top = xs.length := by simpa using h.top
  have hread : (read s.data s.top).join = some x := by rw [htop, read_top h.stacked]
  refine ⟨{ s with top := s.top - 1 }, ?_, h.stacked.pop, ?_, h.capacity, h.pos, h.bound⟩
  · simp [stackPop, h.isEmpty, hread]
  · dsimp only
    omega

/-- The two stacks hold the elements and their minima. -/
structure Represents (obj : MinStack) (xs : List Int) : Prop where
  data : Good maxSize obj.dataStack xs
  minima : Good maxSize obj.minStack (minima xs)

theorem represents_create : Represents minStackCreate [] :=
  ⟨good_stackInit (by decide), good_stackInit (by decide)⟩

theorem minStackPush_spec (h : Represents obj xs) (hroom : xs.length < maxSize) (val : Int) :
    ∃ obj', minStackPush obj val = some obj' ∧ Represents obj' (val :: xs) := by
  have hmax : 2 * (maxSize : Int) ≤ intMax := by decide
  obtain ⟨dataStack, hdata, hgood⟩ := stackPush_spec h.data hroom hmax val
  have hlen := length_minima_le xs
  have hlower : (if stackEmpty obj.minStack then some true
      else (stackPeek obj.minStack).map fun m => decide (val ≤ m)) =
      some (decide (∀ m ∈ (MinimumStack.minima xs).head?, val ≤ m)) := by
    have hminima := h.minima
    cases hcase : MinimumStack.minima xs with
    | nil => simp [hminima.isEmpty, hcase]
    | cons m ms =>
      rw [hcase] at hminima
      simp [hminima.isEmpty, stackPeek_spec hminima]
  by_cases hle : ∀ m ∈ (MinimumStack.minima xs).head?, val ≤ m
  · obtain ⟨minStack, hmin, hgood'⟩ := stackPush_spec h.minima (by omega) hmax val
    refine ⟨{ dataStack, minStack }, ?_, hgood, ?_⟩
    · simp only [minStackPush, hdata, hlower, decide_eq_true hle, hmin, Option.bind_eq_bind,
        Option.bind_some, if_true]
      rfl
    · rw [MinimumStack.minima, if_pos hle]
      exact hgood'
  · refine ⟨{ obj with dataStack }, ?_, hgood, ?_⟩
    · simp only [minStackPush, hdata, hlower, decide_eq_false hle, Option.bind_eq_bind,
        Option.bind_some, Bool.false_eq_true, if_false]
      rfl
    · rw [MinimumStack.minima, if_neg hle]
      exact h.minima

theorem minStackPop_spec (h : Represents obj xs) :
    ∃ obj', minStackPop obj = some obj' ∧ Represents obj' xs.tail := by
  cases xs with
  | nil => exact ⟨obj, by simp [minStackPop, h.data.isEmpty], h⟩
  | cons x xs =>
    obtain ⟨dataStack, hpop, hgood⟩ := stackPop_spec h.data
    obtain ⟨m, hm, heq, hne⟩ := minima_cons x xs
    have hpeek : stackPeek obj.minStack = some m := by
      have hminima := h.minima
      cases hcase : MinimumStack.minima (x :: xs) with
      | nil => simp [hcase] at hm
      | cons m' ms =>
        rw [hcase] at hminima hm
        obtain rfl : m' = m := by simpa using hm
        exact stackPeek_spec hminima
    by_cases hxm : x = m
    · have hminima := h.minima
      rw [heq hxm] at hminima
      obtain ⟨minStack, hpop', hgood'⟩ := stackPop_spec hminima
      exact ⟨{ dataStack, minStack },
        by simp [minStackPop, h.data.isEmpty, hpop, hpeek, hxm, hpop'], hgood, hgood'⟩
    · refine ⟨{ obj with dataStack }, by simp [minStackPop, h.data.isEmpty, hpop, hpeek, hxm],
        hgood, ?_⟩
      have hminima := h.minima
      rwa [hne hxm] at hminima

/-- Each call of the reference is one of the stack. -/
theorem step_spec (obj : MinStack) (xs : List Int) (op : Op) (xs' : List Int) (out : Option Int)
    (h : Represents obj xs) (hstep : MinimumStack.step xs op = some (xs', out)) :
    ∃ obj', step obj op = some (obj', out) ∧ Represents obj' xs' := by
  obtain ⟨val, rfl, hroom, rfl, rfl⟩ | ⟨rfl, rfl, rfl⟩ | ⟨x, ys, rfl, rfl, rfl, rfl⟩ |
    ⟨m, rfl, hm, rfl, rfl⟩ := step_cases hstep
  · obtain ⟨obj', hpush, h'⟩ := minStackPush_spec h hroom val
    exact ⟨obj', by simp [step, hpush], h'⟩
  · obtain ⟨obj', hpop, h'⟩ := minStackPop_spec h
    exact ⟨obj', by simp [step, hpop], h'⟩
  · exact ⟨obj, by simp [step, minStackTop, stackPeek_spec h.data], h⟩
  · rw [← minima_head] at hm
    obtain ⟨ms, hms⟩ := List.head?_eq_some_iff.mp hm
    have hminima := h.minima
    rw [hms] at hminima
    exact ⟨obj, by simp [step, minStackGetMin, stackPeek_spec hminima], h⟩

end Growing

/-! ## A minimum for each element -/

namespace Fixed

variable {obj : MinStack}

/-- The two arrays hold the elements and the least ones up to them. -/
structure Represents (obj : MinStack) (xs : List Int) : Prop where
  data : Stacked obj.data xs
  lowest : Stacked obj.minData (lowest xs)
  top : obj.top = xs.length
  size : obj.data.length = maxSize
  minSize : obj.minData.length = maxSize

theorem represents_create : Represents minStackCreate [] where
  data := stacked_nil _
  lowest := stacked_nil _
  top := rfl
  size := List.length_replicate
  minSize := List.length_replicate

theorem Represents.read_lowest (h : Represents obj xs) (hne : xs ≠ []) :
    (read obj.minData (obj.top - 1)).join = xs.min? := by
  have hstacked := h.lowest
  have htop := h.top
  have hlen := length_lowest xs
  rw [← lowest_head]
  cases hcase : MinimumStack.lowest xs with
  | nil =>
    rw [hcase] at hlen
    exact absurd (List.length_eq_zero_iff.mp hlen.symm) hne
  | cons m ms =>
    rw [hcase] at hstacked hlen
    have hlast : obj.top - 1 = ms.length := by
      simp only [List.length_cons] at hlen
      omega
    rw [hlast, read_top hstacked]
    rfl

theorem minStackPush_spec (h : Represents obj xs) (hroom : xs.length < maxSize) (val : Int) :
    ∃ obj', minStackPush obj val = some obj' ∧ Represents obj' (val :: xs) := by
  have hsize := h.size
  have hminSize := h.minSize
  have hdata := write_top (show xs.length < obj.data.length by omega) val
  obtain ⟨m, hm, hlowest⟩ : ∃ m, (if obj.top = 0 then some val
      else (read obj.minData (obj.top - 1)).join.map fun m => min m val) = some m ∧
      MinimumStack.lowest (val :: xs) = m :: MinimumStack.lowest xs := by
    refine ⟨_, ?_, rfl⟩
    rw [lowest_head]
    cases hxs : xs with
    | nil => simp [h.top, hxs]
    | cons x ys =>
      have htop : obj.top ≠ 0 := by
        rw [h.top, hxs]
        simp only [List.length_cons]
        omega
      rw [if_neg htop, h.read_lowest (by simp [hxs]), hxs, min?_cons]
      rfl
  have hmin : write obj.minData xs.length (some m) =
      some (obj.minData.set xs.length (some m)) := write_top (by omega) m
  refine ⟨{ data := obj.data.set xs.length (some val)
            minData := obj.minData.set xs.length (some m)
            top := obj.top + 1 }, ?_, ?_⟩
  · rw [← h.top] at hdata hmin
    simp only [minStackPush, hdata, hm, hmin, Option.bind_eq_bind, Option.bind_some]
    rfl
  · refine ⟨h.data.push (by omega) val, ?_, ?_, by simpa using hsize, by simpa using hminSize⟩
    · have hpush := h.lowest.push (by rw [length_lowest]; omega) m
      rwa [length_lowest, ← hlowest] at hpush
    · simp [h.top]

theorem minStackPop_spec (h : Represents obj xs) : Represents (minStackPop obj) xs.tail := by
  have htop := h.top
  cases xs with
  | nil =>
    rw [minStackPop, if_neg (by simp [htop])]
    exact h
  | cons x xs =>
    simp only [List.length_cons] at htop
    rw [minStackPop, if_pos (by omega)]
    refine ⟨h.data.pop, h.lowest.pop, ?_, h.size, h.minSize⟩
    simp only [List.tail_cons]
    omega

theorem step_spec (obj : MinStack) (xs : List Int) (op : Op) (xs' : List Int) (out : Option Int)
    (h : Represents obj xs) (hstep : MinimumStack.step xs op = some (xs', out)) :
    ∃ obj', step obj op = some (obj', out) ∧ Represents obj' xs' := by
  obtain ⟨val, rfl, hroom, rfl, rfl⟩ | ⟨rfl, rfl, rfl⟩ | ⟨x, ys, rfl, rfl, rfl, rfl⟩ |
    ⟨m, rfl, hm, rfl, rfl⟩ := step_cases hstep
  · obtain ⟨obj', hpush, h'⟩ := minStackPush_spec h hroom val
    exact ⟨obj', by simp [step, hpush], h'⟩
  · exact ⟨_, rfl, minStackPop_spec h⟩
  · have hlast : obj.top - 1 = ys.length := by
      rw [h.top]
      simp
    exact ⟨obj, by simp [step, minStackTop, hlast, read_top h.data], h⟩
  · have hne : xs' ≠ [] := by
      rintro rfl
      cases hm
    exact ⟨obj, by simp [step, minStackGetMin, h.read_lowest hne, hm], h⟩

end Fixed

/-! ## Every run -/

/-- What the operations of the list return, both stacks return. -/
theorem stacks_agree {ops : List Op} {xs : List Int} {outs : List (Option Int)}
    (h : calls step [] ops = some (xs, outs)) :
    (∃ obj, calls Growing.step Growing.minStackCreate ops = some (obj, outs)) ∧
      ∃ obj, calls Fixed.step Fixed.minStackCreate ops = some (obj, outs) := by
  obtain ⟨growing, hgrowing, -⟩ := calls_simulation Growing.step_spec Growing.represents_create h
  obtain ⟨fixed, hfixed, -⟩ := calls_simulation Fixed.step_spec Fixed.represents_create h
  exact ⟨⟨growing, hgrowing⟩, fixed, hfixed⟩

theorem stacks_agree_seven :
    (∃ obj, calls Growing.step Growing.minStackCreate
      [.push 3, .push (-2147483648), .push 3, .getMin, .pop, .pop, .top] =
        some (obj, [none, none, none, some (-2147483648), none, none, some 3])) ∧
      ∃ obj, calls Fixed.step Fixed.minStackCreate
        [.push 3, .push (-2147483648), .push 3, .getMin, .pop, .pop, .top] =
          some (obj, [none, none, none, some (-2147483648), none, none, some 3]) := by
  have hcalls : calls step [] [.push 3, .push (-2147483648), .push 3, .getMin, .pop, .pop, .top] =
      some ([3], [none, none, none, some (-2147483648), none, none, some 3]) := by decide
  exact stacks_agree hcalls

end Training.MinimumStack
