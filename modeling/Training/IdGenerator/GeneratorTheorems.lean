/-
Training.IdGenerator.GeneratorTheorems — every id is new.

An id is the sum of its three fields (`pack_eq`). `Generator.top` is an
id that the generator has not gone past, and the next one is above it,
whatever the clock does: the sequence number grows while the clock stands
still, and a new millisecond is a later one (`generateId_spec`). Ids of
different generators differ in the worker (`ids_unique`).
-/
import Mathlib.Data.List.Nodup
import Training.IdGenerator.Generator
import Training.Lib.Roster

namespace Training.IdGenerator

open Training.Lib

variable {gen : Generator} {ids : List Nat} {millis timestamp workerId sequence : Nat} {s : State}

/-! ## The fields of an id -/

/-- The readings that have 42 bits from `EPOCH` on. -/
def InRange (millis : Nat) : Prop := epoch ≤ millis ∧ millis < epoch + 2 ^ 42

instance (millis : Nat) : Decidable (InRange millis) := inferInstanceAs (Decidable (_ ∧ _))

theorem pack_eq (ht : InRange timestamp) (hw : workerId ≤ maxWorkerId) (hs : sequence ≤ maxSequence) :
    pack timestamp workerId sequence =
      (timestamp - epoch) * 4194304 + workerId * 4096 + sequence := by
  obtain ⟨hlo, hhi⟩ := ht
  have hw' : workerId ≤ 1023 := hw
  have hs' : sequence < 2 ^ 12 := Nat.lt_succ_of_le hs
  have hsub : (timestamp + uint64Size - epoch) % uint64Size = timestamp - epoch := by
    unfold uint64Size epoch at *
    omega
  have hstamp : (timestamp - epoch) <<< (workerIdBits + sequenceBits) % uint64Size =
      (timestamp - epoch) <<< (10 + 12) := by
    rw [Nat.shiftLeft_eq]
    unfold uint64Size workerIdBits sequenceBits
    omega
  have hlow : workerId <<< 12 + sequence < 2 ^ (10 + 12) := by
    rw [Nat.shiftLeft_eq]
    omega
  unfold pack
  rw [hsub, hstamp, Nat.or_assoc]
  unfold sequenceBits
  rw [← Nat.shiftLeft_add_eq_or_of_lt hs', ← Nat.shiftLeft_add_eq_or_of_lt hlow, Nat.shiftLeft_eq,
    Nat.shiftLeft_eq]
  omega

theorem worker_pack (ht : InRange timestamp) (hw : workerId ≤ maxWorkerId)
    (hs : sequence ≤ maxSequence) : pack timestamp workerId sequence / 4096 % 1024 = workerId := by
  rw [pack_eq ht hw hs]
  have hw' : workerId ≤ 1023 := hw
  have hs' : sequence ≤ 4095 := hs
  omega

/-! ## One generator -/

/-- No id of the generator is greater. -/
def Generator.top (gen : Generator) : Nat :=
  (gen.lastTimestamp - epoch) * 4194304 + gen.workerId * 4096 +
    if gen.phase = .exhausted then maxSequence else gen.sequence

structure Generator.Inv (gen : Generator) (ids : List Nat) : Prop where
  worker : gen.workerId ≤ maxWorkerId
  sequence : gen.sequence ≤ maxSequence
  exhausted : gen.phase = .exhausted → gen.sequence = 0
  /-- before the first id `last_timestamp` is 0 -/
  stamp : InRange gen.lastTimestamp ∨ gen.lastTimestamp = 0 ∧ gen.phase = .idle ∧ ids = []
  below : ∀ id ∈ ids, id ≤ gen.top
  workers : ∀ id ∈ ids, id / 4096 % 1024 = gen.workerId
  sorted : ids.Pairwise (· < ·)

theorem inv_idGeneratorInit (h : idGeneratorInit workerId = some gen) :
    gen.workerId = workerId ∧ gen.Inv [] := by
  unfold idGeneratorInit at h
  split at h
  · cases h
  · rename_i hw
    cases h
    exact ⟨rfl, Nat.le_of_not_lt hw, Nat.zero_le _, nofun, Or.inr ⟨rfl, rfl, rfl⟩, nofun, nofun,
      List.Pairwise.nil⟩

/-- What one reading of the clock does: a new id above all others, or none. -/
structure Generator.Reads (gen : Generator) (ids : List Nat) (r : Generator × Option Nat) :
    Prop where
  workerId : r.1.workerId = gen.workerId
  above : ∀ id ∈ r.2, ∀ old ∈ ids, old < id
  worker : ∀ id ∈ r.2, id / 4096 % 1024 = gen.workerId
  inv : r.1.Inv (ids ++ r.2.toList)

/-- The id is above the last one, and the generator remembers it. -/
theorem finish_spec (h : gen.Inv ids) (ht : InRange timestamp) {sequence : Nat}
    (hseq : sequence ≤ maxSequence)
    (habove : ids ≠ [] →
      gen.top < (timestamp - epoch) * 4194304 + gen.workerId * 4096 + sequence) :
    gen.Reads ids ({ gen with sequence := sequence }.finish timestamp) := by
  have hpack := pack_eq ht h.worker hseq
  have hnew : ∀ old ∈ ids, old < pack timestamp gen.workerId sequence := by
    intro old hold
    rw [hpack]
    exact Nat.lt_of_le_of_lt (h.below old hold) (habove (List.ne_nil_of_mem hold))
  have htop : pack timestamp gen.workerId sequence =
      Generator.top ⟨timestamp, gen.workerId, sequence, .idle⟩ := hpack
  refine ⟨rfl, ?_, ?_, h.worker, hseq, nofun, Or.inl ht, ?_, ?_, ?_⟩
  · rintro id ⟨rfl⟩
    exact hnew
  · rintro id ⟨rfl⟩
    exact worker_pack ht h.worker hseq
  · intro id hid
    rcases List.mem_append.mp hid with hold | hlast
    · exact htop ▸ Nat.le_of_lt (hnew id hold)
    · exact Nat.le_of_eq ((List.mem_singleton.mp hlast).trans htop)
  · intro id hid
    rcases List.mem_append.mp hid with hold | hlast
    · exact h.workers id hold
    · exact List.mem_singleton.mp hlast ▸ worker_pack ht h.worker hseq
  · refine List.pairwise_append.mpr ⟨h.sorted, List.pairwise_singleton _ _, ?_⟩
    intro old hold id hid
    exact List.mem_singleton.mp hid ▸ hnew old hold

/-- A later millisecond is above every id. -/
theorem top_lt_of_later (h : gen.Inv ids) (hlast : InRange gen.lastTimestamp)
    (hlater : gen.lastTimestamp < timestamp) (sequence : Nat) :
    gen.top < (timestamp - epoch) * 4194304 + gen.workerId * 4096 + sequence := by
  have hw : gen.workerId ≤ 1023 := h.worker
  have hs : gen.sequence ≤ 4095 := h.sequence
  obtain ⟨hlo, -⟩ := hlast
  unfold Generator.top maxSequence sequenceBits
  split <;> omega

theorem number_spec (h : gen.Inv ids) (hphase : gen.phase ≠ .exhausted) (ht : InRange timestamp)
    (hpast : gen.lastTimestamp ≤ timestamp) : gen.Reads ids (gen.number timestamp) := by
  have hmask : (gen.sequence + 1) &&& maxSequence = (gen.sequence + 1) % 4096 :=
    Nat.and_two_pow_sub_one_eq_mod _ 12
  have hs : gen.sequence ≤ 4095 := h.sequence
  unfold Generator.number
  split
  · rename_i hlast
    have hin : InRange gen.lastTimestamp := hlast ▸ ht
    dsimp only
    rw [hmask]
    split
    · rename_i hzero
      -- the sequence was at its greatest number
      refine ⟨rfl, nofun, nofun, h.worker, hzero ▸ Nat.zero_le _, fun _ => hzero, Or.inl hin, ?_,
        ?_, ?_⟩
      · intro id hid
        have hid : id ∈ ids := by simpa using hid
        refine Nat.le_trans (h.below id hid) ?_
        unfold Generator.top
        rw [if_neg hphase, if_pos rfl]
        exact Nat.add_le_add_left h.sequence _
      · simpa using h.workers
      · simpa using h.sorted
    · rename_i hne
      refine finish_spec h ht (Nat.le_of_lt_succ (Nat.mod_lt _ (by decide))) fun _ => ?_
      unfold Generator.top
      rw [if_neg hphase, hlast]
      omega
  · rename_i hne
    refine finish_spec h ht (Nat.zero_le _) fun hids => ?_
    rcases h.stamp with hin | ⟨-, -, hnil⟩
    · exact top_lt_of_later h hin (Nat.lt_of_le_of_ne hpast hne) 0
    · exact absurd hnil hids

theorem generateId_spec (h : gen.Inv ids) (ht : InRange millis) :
    gen.Reads ids (generateId gen millis) := by
  -- a reading that is waited over
  have hwait : ∀ phase : Phase, phase ≠ .idle → InRange gen.lastTimestamp →
      (phase = .exhausted ↔ gen.phase = .exhausted) →
      gen.Reads ids ({ gen with phase := phase }, none) := by
    intro phase hne hin hphase
    have htop : Generator.top { gen with phase := phase } = gen.top := by
      unfold Generator.top
      simp only [hphase]
    refine ⟨rfl, nofun, nofun, h.worker, h.sequence, fun hex => h.exhausted (hphase.mp hex),
      Or.inl hin, ?_, ?_, ?_⟩
    · rw [htop]
      simpa using h.below
    · simpa using h.workers
    · simpa using h.sorted
  have hstamp : gen.phase ≠ .idle → InRange gen.lastTimestamp := fun hne =>
    h.stamp.resolve_right fun hfirst => hne hfirst.2.1
  unfold generateId
  cases hphase : gen.phase with
  | idle =>
    dsimp only
    split
    · rename_i hback
      refine hwait .regressed (by decide) (h.stamp.resolve_right fun hfirst => ?_) ?_
      · rw [hfirst.1] at hback
        exact absurd hback (Nat.not_lt_zero _)
      · rw [hphase]
        decide
    · rename_i hforth
      exact number_spec h (by rw [hphase]; decide) ht (Nat.le_of_not_lt hforth)
  | regressed =>
    have hin := hstamp (by rw [hphase]; decide)
    dsimp only
    split
    · have hself := hwait .regressed (by decide) hin (by rw [hphase])
      rwa [← hphase] at hself
    · rename_i hpast
      exact number_spec h (by rw [hphase]; decide) ht (Nat.le_of_lt (Nat.lt_of_not_le hpast))
  | exhausted =>
    have hin := hstamp (by rw [hphase]; decide)
    dsimp only
    split
    · have hself := hwait .exhausted (by decide) hin (by rw [hphase])
      rwa [← hphase] at hself
    · rename_i hpast
      have hfinish := finish_spec h ht h.sequence fun _ =>
        top_lt_of_later h hin (Nat.lt_of_not_le hpast) gen.sequence
      exact hfinish

/-! ## All generators -/

/-- The generators of the workers, and what has been issued by each. -/
structure State.Inv (workerIds : List Nat) (s : State) : Prop where
  workerIds : s.gens.map Generator.workerId = workerIds
  gens : ∀ (i : Nat) (gen : Generator), s.gens[i]? = some gen → gen.Inv (s.idsOf i)
  issuer : ∀ e ∈ s.issued, ∃ gen, s.gens[e.1]? = some gen
  distinct : s.issued.Pairwise fun e e' => e.2 ≠ e'.2

theorem mem_idsOf {i id : Nat} : id ∈ s.idsOf i ↔ (i, id) ∈ s.issued := by
  simp [State.idsOf]

theorem gens_init {workerIds : List Nat} {gens : List Generator}
    (h : workerIds.mapM idGeneratorInit = some gens) :
    gens.map Generator.workerId = workerIds ∧ ∀ gen ∈ gens, gen.Inv [] := by
  induction workerIds generalizing gens with
  | nil =>
    cases h
    exact ⟨rfl, nofun⟩
  | cons workerId rest ih =>
    rw [List.mapM_cons, Option.bind_eq_bind, Option.bind_eq_some_iff] at h
    obtain ⟨gen, hgen, h⟩ := h
    obtain ⟨gens', hrest, heq⟩ := Option.bind_eq_some_iff.mp h
    cases heq
    obtain ⟨hworkers, hinv⟩ := ih hrest
    obtain ⟨hworker, hfirst⟩ := inv_idGeneratorInit hgen
    exact ⟨by rw [List.map_cons, hworker, hworkers], List.forall_mem_cons.mpr ⟨hfirst, hinv⟩⟩

theorem inv_init {workerIds : List Nat} (h : State.init workerIds = some s) :
    s.Inv workerIds := by
  obtain ⟨gens, hgens, rfl⟩ := Option.map_eq_some_iff.mp h
  obtain ⟨hworkers, hinv⟩ := gens_init hgens
  exact ⟨hworkers, fun i gen hi => hinv gen (List.mem_of_getElem? hi), nofun, List.Pairwise.nil⟩

/-- Generators with one worker id are one. -/
theorem eq_of_worker {workerIds : List Nat} (hdistinct : workerIds.Nodup)
    (hw : s.gens.map Generator.workerId = workerIds) {i j : Nat} {gen gen' : Generator}
    (hi : s.gens[i]? = some gen) (hj : s.gens[j]? = some gen')
    (heq : gen.workerId = gen'.workerId) : i = j := by
  obtain ⟨hlt, rfl⟩ := List.getElem?_eq_some_iff.mp hi
  obtain ⟨hlt', rfl⟩ := List.getElem?_eq_some_iff.mp hj
  rw [← hw] at hdistinct
  have hmap : i < (s.gens.map Generator.workerId).length := by simpa using hlt
  have hmap' : j < (s.gens.map Generator.workerId).length := by simpa using hlt'
  refine (@List.Nodup.getElem_inj_iff _ _ hdistinct i hmap j hmap').mp ?_
  rw [List.getElem_map, List.getElem_map, heq]

theorem inv_step {workerIds : List Nat} (hdistinct : workerIds.Nodup) (h : s.Inv workerIds)
    {r : Reading} (hr : InRange r.millis) : (step s r).Inv workerIds := by
  unfold step
  cases hgen : s.gens[r.gen]? with
  | none => exact h
  | some gen =>
    dsimp only
    have hspec := generateId_spec (h.gens r.gen gen hgen) hr
    generalize generateId gen r.millis = result at hspec ⊢
    obtain ⟨hlt, -⟩ := List.getElem?_eq_some_iff.mp hgen
    have hmap : (s.gens.set r.gen result.1).map Generator.workerId = workerIds := by
      rw [← h.workerIds, Roster.map_set hgen hspec.workerId]
    -- the ids of the generator that read the clock, and of the others
    have hsame : State.idsOf ⟨s.gens.set r.gen result.1,
        s.issued ++ result.2.toList.map fun id => (r.gen, id)⟩ r.gen =
          s.idsOf r.gen ++ result.2.toList := by
      cases result.2 <;> simp [State.idsOf]
    have hother : ∀ i, i ≠ r.gen → State.idsOf ⟨s.gens.set r.gen result.1,
        s.issued ++ result.2.toList.map fun id => (r.gen, id)⟩ i = s.idsOf i := by
      intro i hi
      cases result.2 <;> simp [State.idsOf, hi.symm]
    refine ⟨hmap, fun i gen' hi => ?_, fun e he => ?_, ?_⟩
    · by_cases hir : i = r.gen
      · subst hir
        rw [hsame]
        rw [List.getElem?_set_self hlt] at hi
        cases hi
        exact hspec.inv
      · rw [hother i hir]
        rw [List.getElem?_set_ne (Ne.symm hir)] at hi
        exact h.gens i gen' hi
    · rw [List.getElem?_set]
      split
      · exact ⟨result.1, rfl⟩
      · rename_i hne
        rcases List.mem_append.mp he with hold | hnew
        · exact h.issuer e hold
        · obtain ⟨id, -, rfl⟩ := List.mem_map.mp hnew
          exact absurd rfl hne
    · refine List.pairwise_append.mpr ⟨h.distinct, ?_, fun e he e' he' => ?_⟩
      · cases result.2 <;> simp
      · obtain ⟨id, hid, rfl⟩ := List.mem_map.mp he'
        have hid : id ∈ result.2 := Option.mem_toList.mp hid
        obtain ⟨gen', hgen'⟩ := h.issuer e he
        by_cases hsame : e.1 = r.gen
        · exact Nat.ne_of_lt (hspec.above id hid e.2 (mem_idsOf.mpr (hsame ▸ he)))
        · -- another worker
          intro heq
          have hworker := (h.gens e.1 gen' hgen').workers e.2 (mem_idsOf.mpr he)
          rw [heq, hspec.worker id hid] at hworker
          exact hsame (eq_of_worker hdistinct h.workerIds hgen' hgen hworker.symm)

/-- The ids of one generator increase, and no id is issued twice. -/
theorem ids_unique {workerIds : List Nat} (hinit : State.init workerIds = some s)
    (hdistinct : workerIds.Nodup) {readings : List Reading}
    (hclock : ∀ r ∈ readings, InRange r.millis) :
    (∀ i, ((run step s readings).idsOf i).Pairwise (· < ·)) ∧
      ((run step s readings).issued.map Prod.snd).Nodup := by
  have hinv : (run step s readings).Inv workerIds :=
    run_invariant (I := State.Inv workerIds) (fun _ _ h hr => inv_step hdistinct h hr)
      (along_of_forall (d := fun r : Reading => InRange r.millis) hclock) (inv_init hinit)
  refine ⟨fun i => ?_, List.pairwise_map.mpr hinv.distinct⟩
  cases hi : (run step s readings).gens[i]? with
  | some gen => exact (hinv.gens i gen hi).sorted
  | none =>
    have hnil : (run step s readings).idsOf i = [] := by
      refine List.eq_nil_iff_forall_not_mem.mpr fun id hid => ?_
      obtain ⟨gen, hgen⟩ := hinv.issuer _ (mem_idsOf.mp hid)
      rw [hi] at hgen
      cases hgen
    rw [hnil]
    exact List.Pairwise.nil

/-- Two generators, a repeated reading and a clock that jumps back. -/
theorem ids_unique_twoWorkers :
    (∀ i, ((run step ⟨[⟨0, 1, 0, .idle⟩, ⟨0, 7, 0, .idle⟩], []⟩
        [⟨0, epoch + 5⟩, ⟨1, epoch + 5⟩, ⟨0, epoch + 5⟩, ⟨0, epoch + 3⟩, ⟨1, epoch + 9⟩,
          ⟨0, epoch + 5⟩, ⟨0, epoch + 6⟩]).idsOf i).Pairwise (· < ·)) ∧
      ((run step ⟨[⟨0, 1, 0, .idle⟩, ⟨0, 7, 0, .idle⟩], []⟩
        [⟨0, epoch + 5⟩, ⟨1, epoch + 5⟩, ⟨0, epoch + 5⟩, ⟨0, epoch + 3⟩, ⟨1, epoch + 9⟩,
          ⟨0, epoch + 5⟩, ⟨0, epoch + 6⟩]).issued.map Prod.snd).Nodup :=
  @ids_unique _ [1, 7] rfl (by decide) _ (by decide)

end Training.IdGenerator
