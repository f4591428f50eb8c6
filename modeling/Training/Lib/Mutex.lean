/-
Training.Lib.Mutex — threads that share one non-recursive mutex.

A thread repeats an operation, and an operation is a command: statements
and tests whose meaning is a parameter (`Interp`), locking and unlocking
the mutex, sequence, branch and loop. `Threads.step` runs one instruction
of one thread; a thread that locks a mutex somebody holds, itself
included, stays where it is. A run is a list of choices of the thread
that goes next and of what the environment gives it, so every
interleaving is a run, under every meaning of statements and tests.

`Cmd.check` is a static check of the lock discipline: from a mutex that
is held or not by the thread, the command never locks it while holding
it, never unlocks it while not holding it, and whether it holds it
afterwards does not depend on the path. Tests that are assumed never to
be true can be excluded. `disciplined_throughout`: operations that pass
the check keep the discipline in every run in which the excluded tests
are false. `selfLock_forever` is what the discipline is for: a thread
that locks the mutex it holds never moves again, and the mutex is never
free again.
-/
import Mathlib.Logic.Function.Basic
import Training.Lib.Machine

namespace Training.Lib

universe u v

/-! ## Commands and threads -/

inductive Cmd (A T : Type) where
  | skip
  | atom (a : A)
  | lock
  | unlock
  | seq (p q : Cmd A T)
  | ite (c : T) (p q : Cmd A T)
  | loop (c : T) (p : Cmd A T)
  deriving DecidableEq

/-- The commands of a list, in order. -/
def Cmd.block {A T : Type} (cmds : List (Cmd A T)) : Cmd A T := cmds.foldr .seq .skip

/-- What statements and tests do to the shared data `σ`, in the thread
they run in and with what the environment gives them. -/
structure Interp (θ A T : Type) (σ : Type u) (ι : Type v) where
  atom : θ → A → ι → σ → σ
  test : θ → T → ι → σ → Bool

/-- The shared data, the holder of the mutex, and what is left of each
thread's operation. -/
structure Threads (θ A T : Type) (σ : Type u) where
  data : σ
  holder : Option θ
  stack : θ → List (Cmd A T)

variable {θ A T : Type} {σ : Type u} {ι : Type v} [DecidableEq θ]

def Threads.start (data : σ) : Threads θ A T σ where
  data := data
  holder := none
  stack _ := []

def Threads.goto (m : Threads θ A T σ) (t : θ) (k : List (Cmd A T)) : Threads θ A T σ :=
  { m with stack := Function.update m.stack t k }

/-- One instruction of the thread `a.1`, with the input `a.2`. -/
def Threads.step (I : Interp θ A T σ ι) (op : θ → Cmd A T) (m : Threads θ A T σ)
    (a : θ × ι) : Threads θ A T σ :=
  match m.stack a.1 with
  | [] => m.goto a.1 [op a.1]
  | .skip :: k => m.goto a.1 k
  | .atom x :: k => { m.goto a.1 k with data := I.atom a.1 x a.2 m.data }
  | .lock :: k =>
      if m.holder = none then { m.goto a.1 k with holder := some a.1 } else m
  | .unlock :: k =>
      if m.holder = some a.1 then { m.goto a.1 k with holder := none } else m.goto a.1 k
  | .seq p q :: k => m.goto a.1 (p :: q :: k)
  | .ite c p q :: k => m.goto a.1 ((if I.test a.1 c a.2 m.data then p else q) :: k)
  | .loop c p :: k =>
      m.goto a.1 (if I.test a.1 c a.2 m.data then p :: .loop c p :: k else k)

/-! ## The discipline -/

/-- No thread is about to lock the mutex it holds or to unlock one it
does not hold, and no thread holds it between operations. -/
structure Threads.Disciplined (m : Threads θ A T σ) : Prop where
  noSelfLock : ∀ t k, m.holder = some t → m.stack t ≠ .lock :: k
  unlockHeld : ∀ t k, m.stack t = .unlock :: k → m.holder = some t
  released : ∀ t, m.stack t = [] → m.holder ≠ some t

/-- The step does not find one of these tests true. -/
def Threads.Refrains (I : Interp θ A T σ ι) (never : T → Bool) (m : Threads θ A T σ)
    (a : θ × ι) : Prop :=
  match m.stack a.1 with
  | .ite c _ _ :: _ => never c = true → I.test a.1 c a.2 m.data = false
  | .loop c _ :: _ => never c = true → I.test a.1 c a.2 m.data = false
  | _ => True

instance (I : Interp θ A T σ ι) (never : T → Bool) (m : Threads θ A T σ) (a : θ × ι) :
    Decidable (m.Refrains I never a) :=
  match h : m.stack a.1 with
  | .ite c _ _ :: _ =>
      decidable_of_iff (never c = true → I.test a.1 c a.2 m.data = false)
        (by simp [Threads.Refrains, h])
  | .loop c _ :: _ =>
      decidable_of_iff (never c = true → I.test a.1 c a.2 m.data = false)
        (by simp [Threads.Refrains, h])
  | [] => isTrue (by simp [Threads.Refrains, h])
  | .skip :: _ => isTrue (by simp [Threads.Refrains, h])
  | .atom _ :: _ => isTrue (by simp [Threads.Refrains, h])
  | .lock :: _ => isTrue (by simp [Threads.Refrains, h])
  | .unlock :: _ => isTrue (by simp [Threads.Refrains, h])
  | .seq _ _ :: _ => isTrue (by simp [Threads.Refrains, h])

/-! ## The check -/

/-- Whether the mutex is held after the command, by whether it is held
before; `none` when the discipline may be broken. -/
def Cmd.check (never : T → Bool) : Cmd A T → Bool → Option Bool
  | .skip, held => some held
  | .atom _, held => some held
  | .lock, held => if held then none else some true
  | .unlock, held => if held then some false else none
  | .seq p q, held => (p.check never held).bind (q.check never)
  | .ite c p q, held =>
      if never c then q.check never held
      else if p.check never held = q.check never held then p.check never held else none
  | .loop c p, held =>
      if never c then some held
      else if p.check never held = some held then some held else none

/-- The same for what is left of an operation. -/
def checkStack (never : T → Bool) : List (Cmd A T) → Bool → Option Bool
  | [], held => some held
  | c :: k, held => (c.check never held).bind (checkStack never k)

variable {never : T → Bool} {I : Interp θ A T σ ι} {op : θ → Cmd A T} {m : Threads θ A T σ}

/-- Every thread ends its operation without the mutex. -/
def Threads.Checked (never : T → Bool) (m : Threads θ A T σ) : Prop :=
  ∀ t, checkStack never (m.stack t) (decide (m.holder = some t)) = some false

theorem checked_start (data : σ) : (Threads.start data : Threads θ A T σ).Checked never := by
  intro t
  simp [Threads.start, checkStack]

theorem disciplined_of_checked (h : m.Checked never) : m.Disciplined where
  noSelfLock := by
    intro t k hholder hstack
    have ht := h t
    simp [hstack, hholder, checkStack, Cmd.check] at ht
  unlockHeld := by
    intro t k hstack
    have ht := h t
    simp only [hstack, checkStack, Cmd.check, decide_eq_true_eq] at ht
    by_contra hholder
    simp [hholder] at ht
  released := by
    intro t hstack hholder
    have ht := h t
    simp [hstack, hholder, checkStack] at ht

/-! ## One step keeps the check -/

/-- A branch that is taken passes the check of its `ite`. -/
theorem checkStack_ite {c : T} {p q : Cmd A T} {k : List (Cmd A T)} {held b : Bool}
    (h : checkStack never (.ite c p q :: k) held = some false)
    (hb : never c = true → b = false) :
    checkStack never ((if b then p else q) :: k) held = some false := by
  simp only [checkStack, Cmd.check] at h ⊢
  cases hnever : never c with
  | true =>
    rw [hnever, if_pos rfl] at h
    simpa [hb hnever] using h
  | false =>
    rw [hnever, if_neg Bool.false_ne_true] at h
    split at h
    · rename_i hpq
      cases b with
      | true => simpa using h
      | false => simpa [← hpq] using h
    · simp at h

/-- A loop that goes on, and one that ends, pass the check of the loop. -/
theorem checkStack_loop {c : T} {p : Cmd A T} {k : List (Cmd A T)} {held b : Bool}
    (h : checkStack never (.loop c p :: k) held = some false)
    (hb : never c = true → b = false) :
    checkStack never (if b then p :: .loop c p :: k else k) held = some false := by
  have hcopy := h
  simp only [checkStack, Cmd.check] at h
  cases hnever : never c with
  | true =>
    rw [hnever, if_pos rfl] at h
    simpa [hb hnever] using h
  | false =>
    rw [hnever, if_neg Bool.false_ne_true] at h
    split at h
    · rename_i hp
      cases b with
      | true =>
        simp only [if_true]
        rw [checkStack, hp]
        exact hcopy
      | false => simpa using h
    · simp at h

/-- A thread goes on; the holder changes for that thread at most. -/
theorem checked_goto (h : m.Checked never) {t : θ} {k : List (Cmd A T)} {data : σ}
    {holder : Option θ} (hother : ∀ u, u ≠ t → (holder = some u ↔ m.holder = some u))
    (hk : checkStack never k (decide (holder = some t)) = some false) :
    Threads.Checked never { m.goto t k with data, holder } := by
  intro u
  by_cases hu : u = t
  · subst hu
    simpa [Threads.goto] using hk
  · have hsame : decide (holder = some u) = decide (m.holder = some u) :=
      decide_eq_decide.mpr (hother u hu)
    simp only [Threads.goto, Function.update_of_ne hu, hsame]
    exact h u

theorem checked_step (hop : ∀ t, (op t).check never false = some false) (m : Threads θ A T σ)
    (a : θ × ι) (h : m.Checked never) (hrefrains : m.Refrains I never a) :
    (m.step I op a).Checked never := by
  have ht := h a.1
  unfold Threads.Refrains at hrefrains
  unfold Threads.step
  split
  · rename_i hstack
    rw [hstack] at ht
    refine checked_goto h (fun _ _ => Iff.rfl) ?_
    have hheld : decide (m.holder = some a.1) = false := by simpa [checkStack] using ht
    simp [checkStack, hheld, hop]
  · rename_i k hstack
    simp only [hstack, checkStack, Cmd.check, Option.bind_some] at ht
    exact checked_goto h (fun _ _ => Iff.rfl) ht
  · rename_i x k hstack
    simp only [hstack, checkStack, Cmd.check, Option.bind_some] at ht
    exact checked_goto h (fun _ _ => Iff.rfl) ht
  · rename_i k hstack
    rw [hstack] at ht
    split
    · rename_i hfree
      refine checked_goto h ?_ ?_
      · intro u hu
        simp [hfree, Ne.symm hu]
      · simpa [checkStack, Cmd.check, hfree] using ht
    · exact h
  · rename_i k hstack
    rw [hstack] at ht
    have hheld : m.holder = some a.1 := by
      by_contra hnot
      simp [checkStack, Cmd.check, hnot] at ht
    rw [if_pos hheld]
    refine checked_goto h ?_ ?_
    · intro u hu
      simp [hheld, Ne.symm hu]
    · simpa [checkStack, Cmd.check, hheld] using ht
  · rename_i p q k hstack
    rw [hstack] at ht
    refine checked_goto h (fun _ _ => Iff.rfl) ?_
    simpa [checkStack, Cmd.check, Option.bind_assoc] using ht
  · rename_i c p q k hstack
    rw [hstack] at ht hrefrains
    exact checked_goto h (fun _ _ => Iff.rfl) (checkStack_ite ht hrefrains)
  · rename_i c p k hstack
    rw [hstack] at ht hrefrains
    exact checked_goto h (fun _ _ => Iff.rfl) (checkStack_loop ht hrefrains)

/-! ## Runs -/

/-- Operations that pass the check keep the lock discipline in every run
that finds no excluded test true. -/
theorem disciplined_throughout (hop : ∀ t, (op t).check never false = some false)
    (data : σ) (acts : List (θ × ι))
    (h : Along (Threads.step I op) (Threads.Refrains I never) (Threads.start data) acts) :
    Throughout (Threads.step I op) Threads.Disciplined (Threads.start data) acts :=
  throughout_of_step (I := Threads.Checked never) (checked_step hop)
    (fun _ hm => disciplined_of_checked hm) h (checked_start data)

/-- A thread that locks the mutex it holds is blocked for ever, and so is
the mutex. -/
theorem selfLock_forever {t : θ} {k : List (Cmd A T)} (hholder : m.holder = some t)
    (hstack : m.stack t = .lock :: k) (acts : List (θ × ι)) :
    (run (Threads.step I op) m acts).holder = some t ∧
      (run (Threads.step I op) m acts).stack t = .lock :: k := by
  have hstep : ∀ (m : Threads θ A T σ) (a : θ × ι),
      m.holder = some t ∧ m.stack t = .lock :: k →
        (m.step I op a).holder = some t ∧ (m.step I op a).stack t = .lock :: k := by
    rintro m a ⟨hholder, hstack⟩
    by_cases ha : a.1 = t
    · simp [Threads.step, ha, hstack, hholder]
    · have hne : t ≠ a.1 := Ne.symm ha
      have hgoto : ∀ k', (m.goto a.1 k').stack t = .lock :: k := by
        intro k'
        simp [Threads.goto, Function.update_of_ne hne, hstack]
      unfold Threads.step
      split
      · exact ⟨hholder, hgoto _⟩
      · exact ⟨hholder, hgoto _⟩
      · exact ⟨hholder, hgoto _⟩
      · rw [if_neg (by simp [hholder])]
        exact ⟨hholder, hstack⟩
      · rw [if_neg (by simp [hholder, hne])]
        exact ⟨hholder, hgoto _⟩
      · exact ⟨hholder, hgoto _⟩
      · exact ⟨hholder, hgoto _⟩
      · exact ⟨hholder, hgoto _⟩
  exact run_invariant' (I := fun m : Threads θ A T σ =>
    m.holder = some t ∧ m.stack t = .lock :: k) hstep acts ⟨hholder, hstack⟩

end Training.Lib
