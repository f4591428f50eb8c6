/-
Training.CThreadPool.TableTheorems — the table of the thread ids.

A new thread gets the slot `current_pthread_num`, and a routine that
leaves its loop decrements that number: the slot that is given up is the
last one, whoever leaves. As long as the thread in the last slot is the
one that leaves (`Pool.LastOut`), the table below `current_pthread_num`
has the threads that have not exited, each once, until
`ThreadPoolDestroy` starts, and `ThreadPoolDestroy` frees the pool when
all of them have exited and joins none of them twice.
-/
import Training.CThreadPool.AccountingTheorems

namespace Training.CThreadPool

open Training.Lib

universe u

variable {φ α : Type u} {pool pool' : Pool φ α} {t : Nat} {r r' : Routine φ α}

/-- `threadid[0..num)` -/
def Pool.slots (pool : Pool φ α) (num : Int) : List Nat :=
  (List.range num.toNat).map fun k : Nat => pool.threadid k

/-- The threads that were created and have not exited. -/
def Pool.live (pool : Pool φ α) : List Nat :=
  (List.range pool.routines.length).filter fun t =>
    (pool.routines[t]?).any fun r => !r.isExited

/-- The table has each of them once, and no other thread. -/
def Pool.Exact (pool : Pool φ α) : Prop := (pool.slots pool.currentPthreadNum).Perm pool.live

/-- A thread that leaves is the one in the last slot, and no thread is
created in a pool that is being destroyed. -/
def Pool.LastOut (pool : Pool φ α) : Event φ α → Prop
  | .thread t =>
      (pool.routines[t]?).any (fun r => !r.inLoop && !r.isExited) = true →
        pool.threadid (pool.currentPthreadNum - 1) = t
  | .addWorkLimit _ mem =>
      mem = true → pool.shutdown = true → pool.createsLimit pool.currentPthreadNum = false
  | .addWorkUnlimit _ mem =>
      mem = true → pool.shutdown = true → pool.noneFree pool.currentPthreadNum = false
  | .destroy => True
  | .join => True

instance (pool : Pool φ α) : ∀ e : Event φ α, Decidable (pool.LastOut e)
  | .thread _ => inferInstanceAs (Decidable (_ = true → (_ : Nat) = _))
  | .addWorkLimit _ _ | .addWorkUnlimit _ _ =>
      inferInstanceAs (Decidable (_ = true → _ = true → (_ : Bool) = _))
  | .destroy | .join => inferInstanceAs (Decidable True)

/-! ## The table and the threads -/

theorem slots_succ (pool : Pool φ α) {num : Int} (hnum : 0 ≤ num) :
    pool.slots (num + 1) = pool.slots num ++ [pool.threadid num] := by
  have hsucc : (num + 1).toNat = num.toNat + 1 := by omega
  unfold Pool.slots
  rw [hsucc, List.range_succ, List.map_append, List.map_singleton, Int.toNat_of_nonneg hnum]

theorem slots_congr {num : Int} (h : ∀ k, 0 ≤ k → k < num → pool'.threadid k = pool.threadid k) :
    pool'.slots num = pool.slots num := by
  refine List.map_congr_left fun k hk => h k (Int.natCast_nonneg k) ?_
  have hlt : k < num.toNat := List.mem_range.mp hk
  omega

theorem mem_live : t ∈ pool.live ↔ ∃ r, pool.routines[t]? = some r ∧ r.isExited = false := by
  unfold Pool.live
  rw [List.mem_filter, List.mem_range]
  constructor
  · rintro ⟨-, hany⟩
    cases hr : pool.routines[t]? with
    | none => simp [hr] at hany
    | some r => exact ⟨r, rfl, by simpa [hr] using hany⟩
  · rintro ⟨r, hr, hlive⟩
    exact ⟨(List.getElem?_eq_some_iff.mp hr).1, by simp [hr, hlive]⟩

theorem nodup_live (pool : Pool φ α) : pool.live.Nodup := List.nodup_range.filter _

theorem live_create : pool.pthreadCreate.live = pool.live ++ [pool.routines.length] := by
  unfold Pool.live Pool.pthreadCreate
  dsimp only
  rw [List.length_append, List.length_singleton, List.range_succ, List.filter_append]
  congr 1
  · refine List.filter_congr fun t ht => ?_
    rw [List.getElem?_append_left (List.mem_range.mp ht)]
  · simp [Routine.isExited]

theorem live_set (hr : pool.routines[t]? = some r) (hlive : r.isExited = false)
    (hlive' : r'.isExited = false) : (pool.setRoutine t r').live = pool.live := by
  unfold Pool.live Pool.setRoutine
  dsimp only
  rw [List.length_set]
  refine List.filter_congr fun k _ => ?_
  by_cases hk : t = k
  · subst hk
    simp [hr, List.getElem?_set_self (List.getElem?_eq_some_iff.mp hr).1, hlive, hlive']
  · rw [List.getElem?_set_ne hk]

theorem live_exit (hr : pool.routines[t]? = some r) :
    (pool.setRoutine t .exited).live = pool.live.filter (· != t) := by
  unfold Pool.live Pool.setRoutine
  dsimp only
  rw [List.length_set, List.filter_filter]
  refine List.filter_congr fun k _ => ?_
  by_cases hk : t = k
  · subst hk
    simp [List.getElem?_set_self (List.getElem?_eq_some_iff.mp hr).1, Routine.isExited]
  · have hne : (k != t) = true := bne_iff_ne.mpr (Ne.symm hk)
    rw [List.getElem?_set_ne hk, hne, Bool.true_and]

/-! ## Threads that stay -/

/-- The table and the loop of `ThreadPoolDestroy` are left alone, and a
thread exits only when the pool is shut down. -/
structure Pool.Keeps (pool pool' : Pool φ α) : Prop where
  threadid : pool'.threadid = pool.threadid
  pthreadNum : pool'.currentPthreadNum = pool.currentPthreadNum
  joining : pool'.joining = pool.joining
  joined : pool'.joined = pool.joined
  freed : pool'.freed = pool.freed
  shutdown : pool'.shutdown = pool.shutdown
  live : pool.shutdown = false → pool'.live = pool.live
  sublive : ∀ t ∈ pool'.live, t ∈ pool.live

theorem keeps_setRoutine (hr : pool.routines[t]? = some r) (hlive : r.isExited = false)
    (r' : Routine φ α) (hlive' : r'.isExited = false) : pool.Keeps (pool.setRoutine t r') where
  threadid := rfl
  pthreadNum := rfl
  joining := rfl
  joined := rfl
  freed := rfl
  shutdown := rfl
  live _ := live_set hr hlive hlive'
  sublive _ ht' := live_set hr hlive hlive' ▸ ht'

theorem keeps_take (hr : pool.routines[t]? = some r) (hlive : r.isExited = false) :
    pool.Keeps (pool.take t) := by
  have habort : pool.Keeps { pool with aborted := true } :=
    ⟨rfl, rfl, rfl, rfl, rfl, rfl, fun _ => rfl, fun _ ht => ht⟩
  unfold Pool.take
  split
  · exact keeps_setRoutine hr hlive _ rfl
  · split
    · rename_i hclosed
      refine ⟨rfl, rfl, rfl, rfl, rfl, rfl, fun hopen => ?_, fun t' ht' => ?_⟩
      · exact absurd (hclosed.symm.trans hopen) (by decide)
      · rw [live_exit hr] at ht'
        exact List.mem_of_mem_filter ht'
    · split
      · exact habort
      · split
        · exact habort
        · rename_i worker rest hqueue
          have hset := keeps_setRoutine hr hlive (.running worker) rfl
          exact ⟨rfl, rfl, rfl, rfl, rfl, rfl, hset.live, hset.sublive⟩

theorem keeps_finish {worker : Worker φ α} (hr : pool.routines[t]? = some (.running worker)) :
    pool.Keeps (pool.finish t) := by
  have hset (r' : Routine φ α) (hlive' : r'.isExited = false) :
      pool.Keeps (pool.taskDone.setRoutine t r') := by
    have hkeeps := keeps_setRoutine hr rfl _ hlive'
    exact ⟨rfl, rfl, rfl, rfl, rfl, rfl, hkeeps.live, hkeeps.sublive⟩
  unfold Pool.finish
  dsimp only
  split
  · exact hset .leaving rfl
  · exact hset .locking rfl

theorem keeps_submits {newworker : Worker φ α} (hsub : pool.Submits newworker false pool') :
    pool.Keeps pool' where
  threadid := hsub.threadid
  pthreadNum := by simpa using hsub.pthreadNum
  joining := hsub.joining
  joined := hsub.joined
  freed := hsub.freed
  shutdown := hsub.shutdown
  live _ := by simp [Pool.live, hsub.routines]
  sublive t ht := by simpa [Pool.live, hsub.routines] using ht

/-- A step of a thread keeps the table, or the thread leaves. -/
theorem threadPoolRoutine_cases (pool : Pool φ α) (t : Nat) :
    pool.Keeps (threadPoolRoutine pool t) ∨
      pool.routines[t]? = some .leaving ∧ threadPoolRoutine pool t = pool.leave t := by
  have hsame : pool.Keeps pool :=
    ⟨rfl, rfl, rfl, rfl, rfl, rfl, fun _ => rfl, fun _ ht => ht⟩
  unfold threadPoolRoutine
  split
  · rename_i hr
    exact Or.inl (keeps_take hr rfl)
  · rename_i hr
    exact Or.inl (keeps_take hr rfl)
  · rename_i hr
    exact Or.inl (keeps_finish hr)
  · rename_i hr
    exact Or.inr ⟨hr, rfl⟩
  · exact Or.inl hsame
  · exact Or.inl hsame

/-! ## The invariant -/

/-- Until the shutdown. -/
structure Pool.Open (pool : Pool φ α) : Prop where
  exact : pool.Exact
  nonneg : 0 ≤ pool.currentPthreadNum
  joining : pool.joining = none
  joined : pool.joined = []
  freed : pool.freed = false

/-- From the shutdown on, with `num` slots at its time: the threads that
have not exited are in slots below `current_pthread_num`. -/
structure Pool.Closing (pool : Pool φ α) (num : Int) (i : Nat) : Prop where
  nodup : (pool.slots num).Nodup
  pthreadNum : pool.currentPthreadNum ≤ num
  index : i ≤ num
  live : ∀ t ∈ pool.live, t ∈ pool.slots pool.currentPthreadNum
  joining : pool.joining = some i
  joined : pool.joined = pool.slots i
  exited : ∀ t ∈ pool.joined, t ∉ pool.live
  freed : pool.freed = true → pool.live = []

def Pool.Tabled (pool : Pool φ α) : Prop :=
  if pool.shutdown then ∃ num i, pool.Closing num i else pool.Open

theorem tabled_new (h : New pool) : pool.Tabled := by
  cases h with
  | construct maxNum freeNum threadid =>
    refine ⟨?_, Int.natCast_nonneg _, rfl, rfl, rfl⟩
    have hslots : (threadPoolConstruct maxNum freeNum threadid : Pool φ α).slots maxNum =
        List.range maxNum := by
      unfold Pool.slots threadPoolConstruct
      rw [Int.toNat_natCast]
      conv => rhs; rw [← List.map_id (List.range maxNum)]
      refine List.map_congr_left fun k hk => ?_
      have hlt : k < maxNum := List.mem_range.mp hk
      simp [hlt]
    have hlive : (threadPoolConstruct maxNum freeNum threadid : Pool φ α).live =
        List.range maxNum := by
      unfold Pool.live threadPoolConstruct
      dsimp only
      rw [List.length_replicate, List.filter_eq_self]
      intro k hk
      simp [List.mem_range.mp hk, Routine.isExited]
    exact List.Perm.of_eq (hslots.trans hlive.symm)
  | constructDefault threadid => exact ⟨List.Perm.refl _, Int.le_refl _, rfl, rfl, rfl⟩

theorem tabled_open (hopen : pool.shutdown = false) : pool.Tabled ↔ pool.Open := by
  unfold Pool.Tabled
  simp [hopen]

theorem tabled_closed (hclosed : pool.shutdown = true) :
    pool.Tabled ↔ ∃ num i, pool.Closing num i := by
  unfold Pool.Tabled
  simp [hclosed]

theorem Pool.Open.tabled (hopen : pool.shutdown = false) (h : pool.Open) : pool.Tabled :=
  (tabled_open hopen).mpr h

theorem Pool.Closing.tabled {num : Int} {i : Nat} (hclosed : pool.shutdown = true)
    (h : pool.Closing num i) : pool.Tabled :=
  (tabled_closed hclosed).mpr ⟨num, i, h⟩

theorem tabled_keeps (h : pool.Keeps pool') (htab : pool.Tabled) : pool'.Tabled := by
  have hslots (num : Int) : pool'.slots num = pool.slots num := by
    unfold Pool.slots
    rw [h.threadid]
  cases hshutdown : pool.shutdown with
  | false =>
    obtain ⟨hexact, hnonneg, hjoining, hjoined, hfreed⟩ := (tabled_open hshutdown).mp htab
    refine Pool.Open.tabled (h.shutdown.trans hshutdown) ⟨?_, ?_, ?_, ?_, ?_⟩
    · unfold Pool.Exact
      rw [hslots, h.pthreadNum, h.live hshutdown]
      exact hexact
    · rw [h.pthreadNum]
      exact hnonneg
    · exact h.joining.trans hjoining
    · exact h.joined.trans hjoined
    · exact h.freed.trans hfreed
  | true =>
    obtain ⟨num, i, hc⟩ := (tabled_closed hshutdown).mp htab
    exact Pool.Closing.tabled (h.shutdown.trans hshutdown) {
      nodup := by rw [hslots]; exact hc.nodup
      pthreadNum := by rw [h.pthreadNum]; exact hc.pthreadNum
      index := hc.index
      live := fun t ht => by
        rw [hslots, h.pthreadNum]
        exact hc.live t (h.sublive t ht)
      joining := h.joining.trans hc.joining
      joined := by rw [h.joined, hslots, hc.joined]
      exited := fun t ht hlive => hc.exited t (h.joined ▸ ht) (h.sublive t hlive)
      freed := fun hfreed => by
        have hnil := hc.freed (h.freed ▸ hfreed)
        exact List.eq_nil_iff_forall_not_mem.mpr fun t ht =>
          absurd (h.sublive t ht) (by simp [hnil]) }

/-- A thread in the table is in its last slot or below it. -/
theorem slots_last {num : Int} (hmem : t ∈ pool.slots num) :
    0 ≤ num - 1 ∧ pool.slots num = pool.slots (num - 1) ++ [pool.threadid (num - 1)] := by
  obtain ⟨k, hk, -⟩ := List.mem_map.mp hmem
  have hlt : k < num.toNat := List.mem_range.mp hk
  have hnum : 0 ≤ num - 1 := by omega
  have hsucc := slots_succ pool hnum
  rw [Int.sub_add_cancel] at hsucc
  exact ⟨hnum, hsucc⟩

theorem tabled_leave (hr : pool.routines[t]? = some .leaving)
    (hlast : pool.threadid (pool.currentPthreadNum - 1) = t) (htab : pool.Tabled) :
    (pool.leave t).Tabled := by
  have hmem : t ∈ pool.live := mem_live.mpr ⟨_, hr, rfl⟩
  have hlive : (pool.leave t).live = pool.live.filter (· != t) := live_exit hr
  cases hshutdown : pool.shutdown with
  | false =>
    obtain ⟨hexact, -, hjoining, hjoined, hfreed⟩ := (tabled_open hshutdown).mp htab
    obtain ⟨hnum, hslots⟩ := slots_last (hexact.mem_iff.mpr hmem)
    have hnodup := hexact.nodup_iff.mpr (nodup_live pool)
    rw [hslots, hlast] at hnodup
    have hnot : ∀ k ∈ pool.slots (pool.currentPthreadNum - 1), (k != t) = true := fun k hk =>
      bne_iff_ne.mpr fun heq => (List.nodup_append.mp hnodup).2.2 k hk t (by simp) heq
    have hfilter : (pool.slots pool.currentPthreadNum).filter (· != t) =
        pool.slots (pool.currentPthreadNum - 1) := by
      rw [hslots, hlast, List.filter_append, List.filter_eq_self.mpr hnot]
      simp
    refine Pool.Open.tabled hshutdown ⟨?_, hnum, hjoining, hjoined, hfreed⟩
    unfold Pool.Exact
    rw [hlive]
    exact hfilter ▸ hexact.filter _
  | true =>
    obtain ⟨num, i, hc⟩ := (tabled_closed hshutdown).mp htab
    obtain ⟨-, hslots⟩ := slots_last (hc.live t hmem)
    refine Pool.Closing.tabled (i := i) hshutdown ⟨hc.nodup, ?_, hc.index, fun t' ht' => ?_,
      hc.joining, hc.joined, fun t' ht' hmem' => ?_, fun hfreed => ?_⟩
    · exact Int.le_trans (Int.sub_le_self _ (by decide)) hc.pthreadNum
    · rw [hlive] at ht'
      obtain ⟨hin, hne⟩ := List.mem_filter.mp ht'
      have hslot := hc.live t' hin
      rw [hslots, hlast, List.mem_append, List.mem_singleton] at hslot
      exact hslot.resolve_right (bne_iff_ne.mp hne)
    · rw [hlive] at hmem'
      exact hc.exited t' ht' (List.mem_of_mem_filter hmem')
    · rw [hlive, hc.freed hfreed]
      rfl

/-- A new thread in the slot behind the last one. -/
theorem tabled_create {newworker : Worker φ α} (hsub : pool.Submits newworker true pool')
    (hopen : pool.shutdown = false) (htab : pool.Tabled) : pool'.Tabled := by
  obtain ⟨hexact, hnonneg, hjoining, hjoined, hfreed⟩ := (tabled_open hopen).mp htab
  have hnum : pool'.currentPthreadNum = pool.currentPthreadNum + 1 := hsub.pthreadNum
  have hlive : pool'.live = pool.live ++ [pool.routines.length] := by
    unfold Pool.live
    rw [hsub.routines]
    exact live_create
  have hslots : pool'.slots pool.currentPthreadNum = pool.slots pool.currentPthreadNum :=
    slots_congr fun k _ hk => by
      rw [hsub.threadid, if_pos rfl, Function.update_of_ne (Int.ne_of_lt hk)]
  have hslot : pool'.threadid pool.currentPthreadNum = pool.routines.length := by
    rw [hsub.threadid, if_pos rfl, Function.update_self]
  refine Pool.Open.tabled (hsub.shutdown.trans hopen) ⟨?_, ?_, hsub.joining.trans hjoining,
    hsub.joined.trans hjoined, hsub.freed.trans hfreed⟩
  · unfold Pool.Exact
    rw [hnum, hlive, slots_succ _ hnonneg, hslots, hslot]
    exact hexact.append_right _
  · rw [hnum]
    omega

theorem tabled_submits {newworker : Worker φ α} {creates : Bool}
    (hsub : pool.Submits newworker creates pool')
    (hcreates : pool.shutdown = true → creates = false) (htab : pool.Tabled) : pool'.Tabled := by
  cases creates with
  | false => exact tabled_keeps (keeps_submits hsub) htab
  | true =>
    refine tabled_create hsub ?_ htab
    cases hshutdown : pool.shutdown with
    | false => rfl
    | true => exact absurd (hcreates hshutdown) (by decide)

theorem tabled_destroy (htab : pool.Tabled) : (threadPoolDestroy pool).2.Tabled := by
  unfold threadPoolDestroy
  cases hshutdown : pool.shutdown with
  | true => exact htab
  | false =>
    obtain ⟨hexact, hnonneg, -, hjoined, hfreed⟩ := (tabled_open hshutdown).mp htab
    refine Pool.Closing.tabled (i := 0) rfl ⟨?_, Int.le_refl _, hnonneg,
      fun t ht => hexact.mem_iff.mpr ht, rfl, hjoined, ?_, ?_⟩
    · exact hexact.nodup_iff.mpr (nodup_live pool)
    · exact fun t ht => absurd (hjoined ▸ ht) (by simp)
    · exact fun htrue => absurd (hfreed.symm.trans htrue) (by decide)

theorem tabled_join (htab : pool.Tabled) : pool.join.Tabled := by
  cases hshutdown : pool.shutdown with
  | false =>
    have hjoining := ((tabled_open hshutdown).mp htab).joining
    simpa only [Pool.join, hjoining] using htab
  | true =>
    obtain ⟨num, i, hc⟩ := (tabled_closed hshutdown).mp htab
    simp only [Pool.join, hc.joining]
    split
    · rename_i hlt
      split
      · rename_i hexited
        refine Pool.Closing.tabled (i := i + 1) hshutdown ⟨hc.nodup, hc.pthreadNum, ?_, hc.live, rfl,
          ?_, fun t ht hlive => ?_, hc.freed⟩
        · have hnum := hc.pthreadNum
          omega
        · have hslots := slots_succ pool (Int.natCast_nonneg i)
          exact (congrArg (· ++ [pool.threadid i]) hc.joined).trans hslots.symm
        · rcases List.mem_append.mp ht with hold | hnew
          · exact hc.exited t hold hlive
          · obtain ⟨r, hr, hin⟩ := mem_live.mp hlive
            rw [← List.mem_singleton.mp hnew, hr] at hexited
            exact absurd (hin.symm.trans hexited) (by decide)
      · exact htab
    · rename_i hge
      refine Pool.Closing.tabled (i := i) hshutdown ⟨hc.nodup, hc.pthreadNum, hc.index, hc.live, rfl,
        hc.joined, hc.exited, fun _ => ?_⟩
      refine List.eq_nil_iff_forall_not_mem.mpr fun t ht => hc.exited t ?_ ht
      obtain ⟨k, hk, heq⟩ := List.mem_map.mp (hc.live t ht)
      have hlt : k < pool.currentPthreadNum.toNat := List.mem_range.mp hk
      rw [hc.joined]
      exact List.mem_map.mpr ⟨k, List.mem_range.mpr (by omega), heq⟩

theorem tabled_step (e : Event φ α) (htab : pool.Tabled) (hlast : pool.LastOut e) :
    (step pool e).Tabled := by
  unfold step
  split
  · exact htab
  · cases e with
    | addWorkLimit newworker mem =>
      cases mem with
      | false => exact htab
      | true => exact tabled_submits (submits_limit _ newworker) (hlast rfl) htab
    | addWorkUnlimit newworker mem =>
      cases mem with
      | false => exact htab
      | true => exact tabled_submits (submits_unlimit _ newworker) (hlast rfl) htab
    | thread t =>
      rcases threadPoolRoutine_cases pool t with hkeeps | ⟨hr, heq⟩
      · exact tabled_keeps hkeeps htab
      · dsimp only
        rw [heq]
        exact tabled_leave hr (hlast (by rw [hr]; rfl)) htab
    | destroy => exact tabled_destroy htab
    | join => exact tabled_join htab

/-! ## Runs -/

/-- `ThreadPoolDestroy` finds every thread that has not exited in the
table, once and with no other; it frees the pool when they all have
exited, and joins no thread twice. -/
structure Pool.JoinsAll (pool : Pool φ α) : Prop where
  exact : pool.shutdown = false → pool.Exact
  freed : pool.freed = true → ∀ r ∈ pool.routines, r.isExited = true
  joined : pool.joined.Nodup

theorem joinsAll_of_tabled (htab : pool.Tabled) : pool.JoinsAll := by
  cases hshutdown : pool.shutdown with
  | false =>
    obtain ⟨hexact, -, -, hjoined, hfreed⟩ := (tabled_open hshutdown).mp htab
    refine ⟨fun _ => hexact, fun htrue => absurd (hfreed.symm.trans htrue) (by decide), ?_⟩
    rw [hjoined]
    exact List.nodup_nil
  | true =>
    obtain ⟨num, i, hc⟩ := (tabled_closed hshutdown).mp htab
    refine ⟨fun hopen => absurd (hshutdown.symm.trans hopen) (by decide), fun hfreed r hr => ?_, ?_⟩
    · obtain ⟨t, ht⟩ := List.mem_iff_getElem?.mp hr
      by_contra hexited
      have hmem : t ∈ pool.live := mem_live.mpr ⟨r, ht, Bool.not_eq_true _ ▸ hexited⟩
      rw [hc.freed hfreed] at hmem
      exact List.not_mem_nil hmem
    · rw [hc.joined]
      have hindex := hc.index
      exact hc.nodup.sublist ((List.range_sublist.mpr (by omega)).map _)

/-- In every state of every run in which the last thread of the table is
the one to leave. -/
theorem joinsAll_of_lastOut (hnew : New pool) {events : List (Event φ α)}
    (hlast : Along step Pool.LastOut pool events) : (run step pool events).JoinsAll :=
  joinsAll_of_tabled (run_invariant (I := Pool.Tabled) (fun _ e h hc => tabled_step e h hc) hlast
    (tabled_new hnew))

/-- The second of two threads leaves, and the pool is destroyed. -/
theorem joinsAll_twoThreads :
    (run step (threadPoolConstruct 2 0 fun _ => 0 : Pool Nat Nat)
      [.addWorkLimit ⟨1, 10⟩ true, .thread 1, .thread 1, .thread 1, .destroy, .thread 0, .join,
        .join]).JoinsAll :=
  joinsAll_of_lastOut (.construct 2 0 _) (by decide)

/-- The first of two threads leaves: its id is in the table, and that of
the other one is not. So the pool is freed while the other one waits. -/
theorem missed_thread :
    ¬ (run step (threadPoolConstruct 2 0 fun _ => 0 : Pool Nat Nat)
        [.addWorkLimit ⟨1, 10⟩ true, .thread 0, .thread 0, .thread 0]).JoinsAll ∧
      ¬ (run step (threadPoolConstruct 2 0 fun _ => 0 : Pool Nat Nat)
        [.addWorkLimit ⟨1, 10⟩ true, .thread 0, .thread 0, .thread 0, .thread 1, .destroy, .join,
          .join]).JoinsAll := by
  constructor
  · intro h
    have hexact := h.exact (by decide)
    exact absurd (hexact.mem_iff (a := 1)) (by decide)
  · intro h
    exact absurd (h.freed (by decide)) (by decide)

end Training.CThreadPool
