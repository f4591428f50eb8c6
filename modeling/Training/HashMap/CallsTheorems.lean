/-
Training.HashMap.CallsTheorems — a hash map is a dictionary.

* `calls_allowed` — each run of calls ends, and answers what the dictionary
  may answer, while fewer than 65535 items are in it and the sizes in bytes
  do not overflow (`Sized`); the map stays in order.
* `items_conserved` — an item that is put into the map comes out of it once:
  replaced, deleted, or freed.
* `drained` — the loop of `iter_delete_car_all` ends, and deletes each item
  once, although a deletion moves items and makes the map smaller.
-/
import Training.HashMap.Calls
import Training.Lib.Calls

namespace Training.HashMap

open Training.Lib Training.Lib.RobinHood

universe u

variable {α : Type u} {cb : Callbacks α} {map map' : Hashmap α} {d d' : Dict α} {a : Call α}
  {b : Answer α} {as : List (Call α)} {bs : List (Answer α)} {l : List (Nat × α)}

theorem clipHash_clipHash (hash : Nat) : clipHash (clipHash hash) = clipHash hash := by
  rw [clipHash, clipHash, Nat.and_assoc, Nat.and_self]

theorem clipHash_getHash (cb : Callbacks α) (key : α) :
    clipHash (cb.getHash key) = cb.getHash key := clipHash_clipHash _

/-! ## Runs -/

def Refines (cb : Callbacks α) (map : Hashmap α) (d : Dict α) : Prop :=
  Stores cb map d.elements ∧ map.oom = d.oom

theorem iterCar_spec (map : Hashmap α) (fuel i : Nat) (hfuel : map.nbuckets < i + fuel)
    (hi : i ≤ map.nbuckets) :
    iterCar map fuel i = some (itemsFrom map i) := by
  induction fuel generalizing i with
  | zero => omega
  | succ fuel ih =>
    have hiter := hashmapIter_spec map map.nbuckets i (by omega)
    rw [iterCar]
    revert hiter
    cases hashmapIter map map.nbuckets i with
    | none =>
      intro hitems
      rw [show itemsFrom map i = [] from hitems]
    | some r =>
      rintro ⟨hitems, hlt, hle⟩
      dsimp only
      rw [ih _ (by omega) hle, hitems, Option.map_some]

theorem set_does (hcb : Compares cb) (hsize : cb.elsize + 16 ≤ 2 ^ 32) (h : Refines cb map d)
    (hlimit : d.elements.length + 1 < 2 ^ 16) (item : α) (hash : Nat) (granted : Bool) :
    ∃ map' b d', (hashmapSetWithHash cb map item hash granted).map
        (fun r => (r.1, Answer.replaced r.2 r.1.oom)) = some (map', b) ∧
      Sets cb d (clipHash hash, item) granted b d' ∧ Refines cb map' d' := by
  obtain ⟨map', old, hset, ⟨hoom, rfl, hstores⟩ | ⟨rfl, hoom, rfl, hstores⟩⟩ :=
    hashmapSetWithHash_spec hcb hsize h.1 hlimit item hash granted
  · exact ⟨map', _, _, by rw [hset]; rfl, .inl ⟨by rw [hoom], rfl⟩, hstores, hoom⟩
  · exact ⟨map', _, _, by rw [hset]; rfl, .inr ⟨rfl, by rw [hoom], rfl⟩, hstores, hoom⟩

theorem delete_does (hcb : Compares cb) (hsize : cb.elsize + 16 ≤ 2 ^ 32) (h : Refines cb map d)
    (hlimit : d.elements.length + 1 < 2 ^ 16) (key : α) (hash : Nat) (granted : Bool) :
    ∃ map', (hashmapDeleteWithHash cb map key hash granted).map
        (fun r => (r.1, Answer.item r.2)) =
          some (map', .item (held cb (clipHash hash, key) d.elements)) ∧
      Refines cb map' ⟨remove cb (clipHash hash, key) d.elements, false⟩ := by
  obtain ⟨map', hdelete, hstores, hoom⟩ :=
    hashmapDeleteWithHash_spec hcb hsize h.1 (by omega) key hash granted
  exact ⟨map', by rw [hdelete]; rfl, hstores, hoom⟩

theorem step_does (hcb : Compares cb) (hsize : cb.elsize + 16 ≤ 2 ^ 32) (h : Refines cb map d)
    (hlimit : d.elements.length + 1 < 2 ^ 16) (a : Call α) :
    ∃ map' b d', step cb map a = some (map', b) ∧ Does cb d a b d' ∧ Refines cb map' d' := by
  cases a with
  | set item granted =>
    have hset := set_does hcb hsize h hlimit item (cb.getHash item) granted
    rw [clipHash_getHash] at hset
    exact hset
  | setWithHash item hash granted => exact set_does hcb hsize h hlimit item hash granted
  | get key =>
    have hget := hashmapGetWithHash_spec hcb h.1 key (cb.getHash key)
    rw [clipHash_getHash] at hget
    exact ⟨map, _, d, by rw [step, hashmapGet, hget]; rfl, ⟨rfl, rfl⟩, h⟩
  | getWithHash key hash =>
    have hget := hashmapGetWithHash_spec hcb h.1 key hash
    exact ⟨map, _, d, by rw [step, hget]; rfl, ⟨rfl, rfl⟩, h⟩
  | probe position =>
    exact ⟨map, _, d, rfl, ⟨⟨_, rfl, fun item hitem => hashmapProbe_mem h.1 hitem⟩, rfl⟩, h⟩
  | delete key granted =>
    obtain ⟨map', hdelete, h'⟩ := delete_does hcb hsize h hlimit key (cb.getHash key) granted
    rw [clipHash_getHash] at hdelete h'
    exact ⟨map', _, _, hdelete, ⟨rfl, rfl⟩, h'⟩
  | deleteWithHash key hash granted =>
    obtain ⟨map', hdelete, h'⟩ := delete_does hcb hsize h hlimit key hash granted
    exact ⟨map', _, _, hdelete, ⟨rfl, rfl⟩, h'⟩
  | count => exact ⟨map, _, d, rfl, ⟨by rw [h.1.count_eq], rfl⟩, h⟩
  | oom => exact ⟨map, _, d, rfl, ⟨by rw [h.2], rfl⟩, h⟩
  | scan iter =>
    have hscan : d.items.all iter = d.elements.all fun x => iter x.2 := List.all_map
    exact ⟨map, _, d, rfl, ⟨by rw [hashmapScan_spec h.1, hscan], rfl⟩, h⟩
  | iterate =>
    have hloop := iterCar_spec map (map.nbuckets + 1) 0 (by omega) (Nat.zero_le _)
    exact ⟨map, _, d, by rw [step, hloop]; rfl, ⟨⟨_, rfl, h.1.items_perm⟩, rfl⟩, h⟩
  | clear updateCap granted =>
    have hpos := Nat.zero_lt_of_lt (bucketsz_bounds hsize).1
    obtain ⟨hstores, hoom, hfreed⟩ := hashmapClear_spec hpos h.1 updateCap granted
    exact ⟨_, _, ⟨[], d.oom⟩, rfl, ⟨⟨_, rfl, hfreed⟩, rfl⟩, hstores, hoom.trans h.2⟩
  | setLoadFactor factor =>
    refine ⟨_, _, d, rfl, ⟨rfl, rfl⟩, ?_, h.2⟩
    have heven : 2 ≤ map.nbuckets := (by decide : 2 ≤ 16).trans h.1.sixteen_le
    exact { h.1 with
      growat_le := growat_mul_le (clampLoadFactor_le factor) map.nbuckets
      growat_ge := le_two_mul_growat (clampLoadFactor_ge factor) h.1.power heven
      loadfactor_le := clampLoadFactor_le factor
      loadfactor_ge := clampLoadFactor_ge factor }
  | setGrowByPower power =>
    refine ⟨_, _, d, rfl, ⟨rfl, rfl⟩, ?_, h.2⟩
    have hpower : 1 ≤ (if power < 1 then 1 else if power > 16 then 16 else power) ∧
        (if power < 1 then 1 else if power > 16 then 16 else power) ≤ 16 := by
      split_ifs
      all_goals omega
    exact { h.1 with
      growpower_pos := hpower.1
      growpower_le := hpower.2 }

/-- Fewer than 65535 items are in the dictionary at all times: the distances
of a bucket have 16 bits. -/
def Small (cb : Callbacks α) (as : List (Call α)) : Prop :=
  ∀ as₁ bs d, as₁ <+: as → Trace (Does cb) ⟨[], false⟩ as₁ bs d → d.elements.length + 1 < 2 ^ 16

theorem Does.length_le (h : Does cb d a b d') : d'.elements.length ≤ d.elements.length + 1 := by
  have hsets : ∀ x granted, Sets cb d x granted b d' →
      d'.elements.length ≤ d.elements.length + 1 := by
    rintro x granted (⟨-, rfl⟩ | ⟨-, -, rfl⟩)
    · exact Nat.succ_le_succ (List.length_filter_le _ _)
    · exact Nat.le_succ _
  cases a with
  | set item granted => exact hsets _ _ h
  | setWithHash item hash granted => exact hsets _ _ h
  | delete key granted =>
    obtain ⟨-, rfl⟩ := h
    exact (List.length_filter_le _ _).trans (Nat.le_succ _)
  | deleteWithHash key hash granted =>
    obtain ⟨-, rfl⟩ := h
    exact (List.length_filter_le _ _).trans (Nat.le_succ _)
  | clear updateCap granted =>
    obtain ⟨-, rfl⟩ := h
    exact Nat.zero_le _
  | _ =>
    obtain ⟨-, rfl⟩ := h
    exact Nat.le_succ _

theorem length_le_of_trace (h : Trace (Does cb) d as bs d') :
    d'.elements.length ≤ d.elements.length + as.length := by
  induction h with
  | nil d => exact Nat.le_refl _
  | cons hdoes _ ih =>
    have hstep := hdoes.length_le
    rw [List.length_cons]
    omega

/-- It takes calls to fill a dictionary. -/
theorem small_of_length (h : as.length + 1 < 2 ^ 16) : Small cb as := by
  intro as₁ bs d hprefix htrace
  have hlength := length_le_of_trace htrace
  have hshort := hprefix.length_le
  simp only [List.length_nil, Nat.zero_add] at hlength
  omega

/-- Each run of calls ends, and is one of a dictionary. -/
theorem calls_allowed (hcb : Compares cb) {cap : Nat} (hsized : Sized cb cap)
    (hsmall : Small cb as) :
    ∃ map map' bs d, hashmapNewWithAllocator cb cap true = some (some map) ∧
      calls (step cb) map as = some (map', bs) ∧ Trace (Does cb) ⟨[], false⟩ as bs d ∧
      Refines cb map' d := by
  obtain ⟨map, hnew, hstores, -, -, hoom⟩ := hashmapNew_spec hsized.cap_le (by decide) (by decide)
    (Nat.zero_lt_of_lt (bucketsz_bounds hsized.elsize_le).1) hsized.fits
  obtain ⟨map', bs, d, hcalls, htrace, hrefines⟩ :=
    calls_trace (R := Refines cb) (fun d => d.elements.length + 1 < 2 ^ 16)
      (fun map d a h hlimit => step_does hcb hsized.elsize_le h hlimit a) ⟨hstores, hoom⟩ hsmall
  exact ⟨map, map', bs, d, hnew, hcalls, htrace, hrefines⟩

/-! ## Items -/

/-- The item that a call puts into the map. -/
def given : Call α → Answer α → List α
  | .set item _, .replaced _ false => [item]
  | .setWithHash item _ _, .replaced _ false => [item]
  | _, _ => []

/-- The items that a call takes out of the map. -/
def taken : Call α → Answer α → List α
  | .set _ _, .replaced old _ => old.toList
  | .setWithHash _ _ _, .replaced old _ => old.toList
  | .delete _ _, .item found => found.toList
  | .deleteWithHash _ _ _, .item found => found.toList
  | .clear _ _, .items freed => freed
  | _, _ => []

def allGiven (as : List (Call α)) (bs : List (Answer α)) : List α :=
  (List.zipWith given as bs).flatten

def allTaken (as : List (Call α)) (bs : List (Answer α)) : List α :=
  (List.zipWith taken as bs).flatten

/-- What is removed from a dictionary is what was held. -/
theorem held_append_remove (hcb : Compares cb) (h : Distinct cb l) (x : Nat × α) :
    ((held cb x l).toList ++ (remove cb x l).map Prod.snd).Perm (l.map Prod.snd) := by
  cases hfind : l.find? (same cb x) with
  | none =>
    have hheld : held cb x l = none := by rw [held, hfind]; rfl
    rw [hheld, remove_eq_self hheld]
    exact .refl _
  | some y =>
    obtain ⟨l₁, l₂, rfl⟩ := List.append_of_mem (List.mem_of_find?_eq_some hfind)
    obtain ⟨hheld, hrest⟩ := h.held_of_perm hcb List.perm_middle.symm (List.find?_some hfind)
    rw [hheld]
    have hitems := (hrest.symm.cons y).trans List.perm_middle.symm
    exact hitems.map Prod.snd

theorem Does.distinct (h : Does cb d a b d') (hd : Distinct cb d.elements) :
    Distinct cb d'.elements := by
  have hsets : ∀ x granted, Sets cb d x granted b d' → Distinct cb d'.elements := by
    rintro x granted (⟨-, rfl⟩ | ⟨-, -, rfl⟩)
    · exact hd.cons_remove x
    · exact hd
  cases a with
  | set item granted => exact hsets _ _ h
  | setWithHash item hash granted => exact hsets _ _ h
  | delete key granted =>
    obtain ⟨-, rfl⟩ := h
    exact hd.filter _
  | deleteWithHash key hash granted =>
    obtain ⟨-, rfl⟩ := h
    exact hd.filter _
  | clear updateCap granted =>
    obtain ⟨-, rfl⟩ := h
    exact List.Pairwise.nil
  | _ =>
    obtain ⟨-, rfl⟩ := h
    exact hd

theorem Does.conserves (hcb : Compares cb) (hfree : cb.elfree = true) (h : Does cb d a b d')
    (hd : Distinct cb d.elements) : (given a b ++ d.items).Perm (taken a b ++ d'.items) := by
  have hremove : ∀ x, ((held cb x d.elements).toList ++ (remove cb x d.elements).map Prod.snd).Perm
      d.items := held_append_remove hcb hd
  cases a with
  | set item granted =>
    obtain ⟨rfl, rfl⟩ | ⟨-, rfl, rfl⟩ := h
    · exact ((hremove (cb.getHash item, item)).symm.cons item).trans List.perm_middle.symm
    · exact .refl _
  | setWithHash item hash granted =>
    obtain ⟨rfl, rfl⟩ | ⟨-, rfl, rfl⟩ := h
    · exact ((hremove (clipHash hash, item)).symm.cons item).trans List.perm_middle.symm
    · exact .refl _
  | delete key granted =>
    obtain ⟨rfl, rfl⟩ := h
    exact (hremove (cb.getHash key, key)).symm
  | deleteWithHash key hash granted =>
    obtain ⟨rfl, rfl⟩ := h
    exact (hremove (clipHash hash, key)).symm
  | clear updateCap granted =>
    obtain ⟨⟨freed, rfl, hfreed⟩, rfl⟩ := h
    rw [hfree, if_pos rfl] at hfreed
    simpa [given, taken, Dict.items] using hfreed.symm
  | _ =>
    obtain ⟨-, rfl⟩ := h
    exact .refl _

theorem conserved_of_trace (hcb : Compares cb) (hfree : cb.elfree = true)
    (h : Trace (Does cb) d as bs d') (hd : Distinct cb d.elements) :
    (allGiven as bs ++ d.items).Perm (allTaken as bs ++ d'.items) := by
  induction h with
  | nil d => exact .refl _
  | @cons d d₁ d' a b as bs hdoes _ ih =>
    have hrest := ih (hdoes.distinct hd)
    have hfirst := hdoes.conserves hcb hfree hd
    have hgiven : allGiven (a :: as) (b :: bs) = given a b ++ allGiven as bs := by
      simp [allGiven]
    have htaken : allTaken (a :: as) (b :: bs) = taken a b ++ allTaken as bs := by
      simp [allTaken]
    rw [hgiven, htaken, List.append_assoc, List.append_assoc]
    refine (List.perm_append_comm_assoc ..).trans ?_
    refine (hfirst.append_left _).trans ?_
    refine (List.perm_append_comm_assoc ..).trans ?_
    exact hrest.append_left _

/-- What is put into the map is taken out of it again, or is freed with it. -/
theorem items_conserved (hcb : Compares cb) (hfree : cb.elfree = true) {cap : Nat}
    (hsized : Sized cb cap) (hsmall : Small cb as) :
    ∃ map map' bs, hashmapNewWithAllocator cb cap true = some (some map) ∧
      calls (step cb) map as = some (map', bs) ∧
      (allGiven as bs).Perm (allTaken as bs ++ hashmapFree cb (some map')) := by
  obtain ⟨map, map', bs, d, hnew, hcalls, htrace, hstores, -⟩ := calls_allowed hcb hsized hsmall
  refine ⟨map, map', bs, hnew, hcalls, ?_⟩
  have hitems := conserved_of_trace hcb hfree htrace List.Pairwise.nil
  have hfreed := freeElements_spec hstores
  rw [hfree, if_pos rfl] at hfreed
  rw [Dict.items, List.map_nil, List.append_nil] at hitems
  exact hitems.trans (hfreed.symm.append_left _)

/-! ## The loop that deletes all cars -/

/-- The hash of an item is the one that the callback gives. -/
def Own (cb : Callbacks α) (l : List (Nat × α)) : Prop := ∀ x ∈ l, x.1 = cb.getHash x.2

theorem held_self (hcb : Compares cb) (h : Distinct cb l) {x : Nat × α} (hx : x ∈ l) :
    held cb x l = some x.2 := by
  obtain ⟨l₁, l₂, rfl⟩ := List.append_of_mem hx
  exact (h.held_of_perm hcb List.perm_middle.symm (same_refl hcb x)).1

theorem iterDeleteCarAll_spec (hcb : Compares cb) (hsize : cb.elsize + 16 ≤ 2 ^ 32)
    (h : Stores cb map l) (hown : Own cb l)
    (hlimit : l.length < 2 ^ 16) (granted : Nat → Bool) {fuel : Nat} (hfuel : l.length < fuel) :
    ∃ map' deleted, iterDeleteCarAll cb granted fuel map = some (map', deleted) ∧
      Stores cb map' [] ∧ deleted.Perm (l.map Prod.snd) := by
  induction fuel generalizing map l with
  | zero => omega
  | succ fuel ih =>
    have hiter := hashmapIter_spec map map.nbuckets 0 (by omega)
    rw [iterDeleteCarAll]
    revert hiter
    cases hashmapIter map map.nbuckets 0 with
    | none =>
      intro hitems
      have hnil : l.map Prod.snd = [] := by
        have hperm := h.items_perm
        rw [show itemsFrom map 0 = [] from hitems] at hperm
        exact List.nil_perm.mp hperm
      obtain rfl := List.map_eq_nil_iff.mp hnil
      exact ⟨map, [], rfl, h, .refl _⟩
    | some r =>
      rintro ⟨hitems, -, -⟩
      have hmem : r.1 ∈ l.map Prod.snd :=
        h.items_perm.subset (by rw [hitems]; exact List.mem_cons_self)
      obtain ⟨⟨hash, car⟩, hx, hcar⟩ := List.mem_map.mp hmem
      have hhash : hash = cb.getHash car := hown _ hx
      obtain rfl : car = r.1 := hcar
      obtain ⟨map₁, hdelete, hstores, -⟩ :=
        hashmapDeleteWithHash_spec hcb hsize h hlimit r.1 (cb.getHash r.1) (granted fuel)
      rw [clipHash_getHash, ← hhash, held_self hcb h.distinct hx] at hdelete
      rw [clipHash_getHash, ← hhash] at hstores
      have hall := held_append_remove hcb h.distinct (hash, r.1)
      rw [held_self hcb h.distinct hx] at hall
      have hlength := hall.length_eq
      simp only [Option.toList_some, List.length_append, List.length_map, List.length_cons,
        List.length_nil] at hlength
      have hown' : Own cb (remove cb (hash, r.1) l) :=
        fun y hy => hown y (List.mem_of_mem_filter hy)
      obtain ⟨map', deleted, hloop, hempty, hperm⟩ := ih hstores hown' (by omega) (by omega)
      refine ⟨map', r.1 :: deleted, ?_, hempty, (hperm.cons r.1).trans hall⟩
      rw [hhash] at hdelete
      simp [hashmapDelete, hdelete, hloop]

/-- A call of `hashmap_set_with_hash`. -/
def Call.isForeign : Call α → Bool
  | .setWithHash _ _ _ => true
  | _ => false

theorem own_of_trace (h : Trace (Does cb) d as bs d') (hplain : ∀ a ∈ as, a.isForeign = false)
    (hown : Own cb d.elements) : Own cb d'.elements := by
  induction h with
  | nil d => exact hown
  | @cons d d₁ d' a b as bs hdoes _ ih =>
    refine ih (fun a ha => hplain a (List.mem_cons_of_mem _ ha)) ?_
    have hfirst := hplain a List.mem_cons_self
    cases a with
    | setWithHash item hash granted => cases hfirst
    | set item granted =>
      obtain ⟨-, rfl⟩ | ⟨-, -, rfl⟩ := hdoes
      · intro x hx
        rcases List.mem_cons.mp hx with rfl | hx
        · rfl
        · exact hown x (List.mem_of_mem_filter hx)
      · exact hown
    | delete key granted =>
      obtain ⟨-, rfl⟩ := hdoes
      exact fun x hx => hown x (List.mem_of_mem_filter hx)
    | deleteWithHash key hash granted =>
      obtain ⟨-, rfl⟩ := hdoes
      exact fun x hx => hown x (List.mem_of_mem_filter hx)
    | clear updateCap granted =>
      obtain ⟨-, rfl⟩ := hdoes
      exact fun x hx => absurd hx List.not_mem_nil
    | _ =>
      obtain ⟨-, rfl⟩ := hdoes
      exact hown

/-- After any run in which the items have their own hashes the loop deletes
each item once, and leaves nothing to free. -/
theorem drained (hcb : Compares cb) {cap : Nat} (hsized : Sized cb cap) (hsmall : Small cb as)
    (hplain : ∀ a ∈ as, a.isForeign = false) (granted : Nat → Bool) :
    ∃ map map' map'' bs d deleted, hashmapNewWithAllocator cb cap true = some (some map) ∧
      calls (step cb) map as = some (map', bs) ∧ Trace (Does cb) ⟨[], false⟩ as bs d ∧
      iterDeleteCarAll cb granted (map'.count + 1) map' = some (map'', deleted) ∧
      deleted.Perm d.items ∧ map''.count = 0 ∧ hashmapFree cb (some map'') = [] := by
  obtain ⟨map, map', bs, d, hnew, hcalls, htrace, hstores, -⟩ := calls_allowed hcb hsized hsmall
  have hown : Own cb d.elements :=
    own_of_trace htrace hplain fun x hx => absurd hx List.not_mem_nil
  have hlimit := hsmall as bs d (List.prefix_refl as) htrace
  have hfuel : d.elements.length < map'.count + 1 := by
    rw [hstores.count_eq]
    exact Nat.lt_succ_self _
  obtain ⟨map'', deleted, hloop, hempty, hdeleted⟩ :=
    iterDeleteCarAll_spec hcb hsized.elsize_le hstores hown (by omega) granted hfuel
  have hfreed := freeElements_spec hempty
  rw [List.map_nil, ite_self, List.perm_nil] at hfreed
  exact ⟨map, map', map'', bs, d, deleted, hnew, hcalls, htrace, hloop, hdeleted, hempty.count_eq,
    hfreed⟩

/-! ## Cars -/

theorem compares_carCallbacks (hash : Car → Nat) : Compares (carCallbacks hash) := by
  have hequal : ∀ x y, (carCallbacks hash).equal x y = true ↔ x.id = y.id := fun x y => by
    simp [carCallbacks, Callbacks.equal, carCompare, Int.sub_eq_zero]
  constructor
  · exact fun x => (hequal x x).mpr rfl
  · exact fun {x y} hxy => (hequal y x).mpr ((hequal x y).mp hxy).symm
  · exact fun {x y z} hxy hyz => (hequal x z).mpr
      (((hequal x y).mp hxy).trans ((hequal y z).mp hyz))

theorem sized_carCallbacks (hash : Car → Nat) : Sized (carCallbacks hash) 10 where
  elsize_le := (by decide : carSize + 16 ≤ 2 ^ 32)
  cap_le := by decide
  fits n hn := by
    obtain rfl : 16 = n := Option.some.inj hn
    have hbucketsz : (carCallbacks hash).bucketsz = 40 := by
      simp [Callbacks.bucketsz, carCallbacks, carSize]
    rw [hbucketsz]
    decide

def carHash (car : Car) : Nat := 16 * car.id.toNat + 3

def carCalls : List (Call Car) :=
  [.set ⟨1, 100, 0, 5, 0⟩ true, .set ⟨2, 200, 0, 5, 0⟩ true, .set ⟨1, 300, 0, 6, 0⟩ true,
    .get ⟨2, 0, 0, 0, 0⟩, .delete ⟨2, 0, 0, 0, 0⟩ false, .count]

theorem small_carCalls : Small (carCallbacks carHash) carCalls := small_of_length (by decide)

theorem calls_allowed_cars : ∃ map map' bs d,
    hashmapNewWithAllocator (carCallbacks carHash) 10 true = some (some map) ∧
      calls (step (carCallbacks carHash)) map carCalls = some (map', bs) ∧
      Trace (Does (carCallbacks carHash)) ⟨[], false⟩ carCalls bs d ∧
      Refines (carCallbacks carHash) map' d :=
  calls_allowed (compares_carCallbacks carHash) (sized_carCallbacks carHash) small_carCalls

theorem items_conserved_cars : ∃ map map' bs,
    hashmapNewWithAllocator (carCallbacks carHash) 10 true = some (some map) ∧
      calls (step (carCallbacks carHash)) map carCalls = some (map', bs) ∧
      (allGiven carCalls bs).Perm
        (allTaken carCalls bs ++ hashmapFree (carCallbacks carHash) (some map')) :=
  items_conserved (compares_carCallbacks carHash) rfl (sized_carCallbacks carHash) small_carCalls

theorem drained_cars : ∃ map map' map'' bs d deleted,
    hashmapNewWithAllocator (carCallbacks carHash) 10 true = some (some map) ∧
      calls (step (carCallbacks carHash)) map carCalls = some (map', bs) ∧
      Trace (Does (carCallbacks carHash)) ⟨[], false⟩ carCalls bs d ∧
      iterDeleteCarAll (carCallbacks carHash) (fun _ => true) (map'.count + 1) map' =
        some (map'', deleted) ∧
      deleted.Perm d.items ∧ map''.count = 0 ∧
        hashmapFree (carCallbacks carHash) (some map'') = [] :=
  drained (compares_carCallbacks carHash) (sized_carCallbacks carHash) small_carCalls (by decide)
    fun _ => true

end Training.HashMap
