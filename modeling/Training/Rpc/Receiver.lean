/-
Training.Rpc.Receiver — what the server makes of a stream of bytes,
however the stream is cut.

`Receiver` takes one byte at a time. It knows nothing of reads, counters
or buffers: its state is the bytes of the unfinished header or payload,
the size of the one allocation of a connection, and the payloads handed
over. `Training.Rpc.ServerTheorems` shows that the server, after any
calls, is where the receiver is after the bytes that the reads returned.

`feedAll` of the parts of a frame is in the lemmas below, one for each
way a frame can go on. From them comes the receiver on a stream of
packed payloads (`feedAll_receivable`, `receivable_of_accepted`,
`accepted_take`), and on any stream the lengths it is announced
(`headersFit_announced`).
-/
import Training.Rpc.Frame

namespace Training.Rpc

open Training.Lib

inductive Phase where
  /-- so much of a header is there -/
  | head (got : List UInt8)
  /-- so much of a payload of `total` bytes is there -/
  | body (total : Nat) (got : List UInt8)
  /-- no memory, or a length that no `int` holds -/
  | refused
  /-- a byte has been written behind the allocation -/
  | overrun
  deriving DecidableEq

structure Receiver where
  /-- the size of the allocation -/
  held : Option Nat
  phase : Phase
  accepted : List (List UInt8)
  /-- the lengths in the headers so far -/
  announced : List Nat

def Receiver.init : Receiver where
  held := none
  phase := .head []
  accepted := []
  announced := []

/-- At the end of a header. -/
def Receiver.header (mem : Nat → Bool) (r : Receiver) (len : Nat) : Receiver :=
  if r.held.isNone && !mem len then
    { r with announced := r.announced ++ [len], phase := .refused }
  else { r with
    held := some (r.held.getD len)
    announced := r.announced ++ [len]
    phase := if int32Size ≤ len then .refused else .body len [] }

/-- One byte more. Behind the header of an empty payload nothing is read. -/
def Receiver.feed (mem : Nat → Bool) (r : Receiver) (b : UInt8) : Receiver :=
  match r.phase with
  | .head got =>
      if (got ++ [b]).length < packageHeadLen then { r with phase := .head (got ++ [b]) }
      else r.header mem (dataLen (got ++ [b]))
  | .body total got =>
      if total = 0 then r
      else if r.held.getD 0 < (got ++ [b]).length then { r with phase := .overrun }
      else if (got ++ [b]).length < total then { r with phase := .body total (got ++ [b]) }
      else { r with phase := .head [], accepted := r.accepted ++ [got ++ [b]] }
  | .refused => r
  | .overrun => r

def Receiver.feedAll (mem : Nat → Bool) (r : Receiver) (bs : List UInt8) : Receiver :=
  bs.foldl (Receiver.feed mem) r

/-- The lengths in the headers of a stream, up to the first empty payload. -/
def headers (s : List UInt8) : List Nat :=
  if s.length < packageHeadLen then []
  else
    let len := dataLen (s.take packageHeadLen)
    len :: if len = 0 then [] else headers (s.drop (packageHeadLen + len))
termination_by s.length
decreasing_by
  simp only [List.length_drop, packageHeadLen] at *
  omega

variable {mem : Nat → Bool} {r : Receiver} {got bs : List UInt8} {total : Nat}

@[simp] theorem feedAll_nil : r.feedAll mem [] = r := rfl

@[simp] theorem feedAll_cons (b : UInt8) (bs : List UInt8) :
    r.feedAll mem (b :: bs) = (r.feed mem b).feedAll mem bs := rfl

theorem feedAll_append (as bs : List UInt8) :
    r.feedAll mem (as ++ bs) = (r.feedAll mem as).feedAll mem bs :=
  List.foldl_append

/-! ## The parts of a frame -/

theorem feedAll_head (h : r.phase = .head got) (hlen : (got ++ bs).length < packageHeadLen) :
    r.feedAll mem bs = { r with phase := .head (got ++ bs) } := by
  induction bs generalizing r got with
  | nil =>
    rw [List.append_nil, ← h]
    rfl
  | cons b bs ih =>
    have hstep : r.feed mem b = { r with phase := .head (got ++ [b]) } := by
      unfold Receiver.feed
      rw [h]
      refine if_pos ?_
      simp only [List.length_append, List.length_cons, List.length_nil] at hlen ⊢
      omega
    rw [feedAll_cons, hstep, ih rfl (by simpa using hlen)]
    simp

theorem feedAll_header (h : r.phase = .head got) (hgot : got.length < packageHeadLen)
    (hlen : (got ++ bs).length = packageHeadLen) :
    r.feedAll mem bs = r.header mem (dataLen (got ++ bs)) := by
  have hbs : bs ≠ [] := by
    intro hnil
    simp [hnil] at hlen
    omega
  obtain ⟨pre, b, rfl⟩ : ∃ pre b, bs = pre ++ [b] :=
    ⟨_, _, (List.dropLast_concat_getLast hbs).symm⟩
  have hpre : (got ++ pre).length < packageHeadLen := by
    simp only [List.length_append, List.length_cons, List.length_nil] at hlen ⊢
    omega
  rw [feedAll_append, feedAll_head h hpre, ← List.append_assoc]
  rw [← List.append_assoc] at hlen
  simp only [feedAll_cons, feedAll_nil, Receiver.feed]
  rw [if_neg (by omega)]
  rfl

section Body

variable {h : Nat} (hphase : r.phase = .body total got) (hheld : r.held = some h)

include hphase hheld

theorem feedAll_body (hlen : (got ++ bs).length < total) (hfit : (got ++ bs).length ≤ h) :
    r.feedAll mem bs = { r with phase := .body total (got ++ bs) } := by
  induction bs generalizing r got with
  | nil =>
    rw [List.append_nil, ← hphase]
    rfl
  | cons b bs ih =>
    have hpart : (got ++ [b]).length ≤ (got ++ b :: bs).length := by simp
    have hstep : r.feed mem b = { r with phase := .body total (got ++ [b]) } := by
      unfold Receiver.feed
      rw [hphase, hheld]
      exact (if_neg (by omega)).trans
        ((if_neg (Nat.not_lt.mpr (Nat.le_trans hpart hfit))).trans (if_pos (by omega)))
    rw [feedAll_cons, hstep, ih (r := { r with phase := .body total (got ++ [b]) }) rfl hheld
      (by simpa using hlen) (by simpa using hfit)]
    simp

theorem feedAll_last (hbs : bs ≠ []) (hlen : (got ++ bs).length = total) (hfit : total ≤ h) :
    r.feedAll mem bs = { r with phase := .head [], accepted := r.accepted ++ [got ++ bs] } := by
  obtain ⟨pre, b, rfl⟩ : ∃ pre b, bs = pre ++ [b] :=
    ⟨_, _, (List.dropLast_concat_getLast hbs).symm⟩
  have hpre : (got ++ pre).length < total := by
    simp only [List.length_append, List.length_cons, List.length_nil] at hlen ⊢
    omega
  rw [feedAll_append, feedAll_body hphase hheld hpre (by omega), ← List.append_assoc]
  rw [← List.append_assoc] at hlen
  simp only [feedAll_cons, feedAll_nil, Receiver.feed, hheld, Option.getD_some]
  rw [if_neg (by omega), if_neg (by omega), if_neg (by omega)]

end Body

/-- No byte changes the receiver any more. -/
def Receiver.Absorbed (r : Receiver) : Prop :=
  match r.phase with
  | .head _ => False
  | .body total _ => total = 0
  | .refused => True
  | .overrun => True

theorem feedAll_absorbed (h : r.Absorbed) : r.feedAll mem bs = r := by
  induction bs with
  | nil => rfl
  | cons b bs ih =>
    have hstep : r.feed mem b = r := by
      unfold Receiver.Absorbed at h
      unfold Receiver.feed
      split at h
      · exact h.elim
      · simp only [h, if_true]
      · rfl
      · rfl
    rw [feedAll_cons, hstep]
    exact ih

/-- A payload that does not fit, as soon as its bytes are past the
allocation. -/
theorem feedAll_long {h : Nat} (hphase : r.phase = .body total got) (hheld : r.held = some h)
    (hgot : got.length ≤ h) (hlen : h < (got ++ bs).length) (htotal : h < total) :
    r.feedAll mem bs = { r with phase := .overrun } := by
  obtain ⟨pre, b, post, rfl, hpre⟩ :
      ∃ pre b post, bs = pre ++ b :: post ∧ (got ++ pre).length = h := by
    have hk : h - got.length < bs.length := by
      rw [List.length_append] at hlen
      omega
    refine ⟨bs.take (h - got.length), bs[h - got.length], bs.drop (h - got.length + 1), ?_, ?_⟩
    · rw [← List.drop_eq_getElem_cons, List.take_append_drop]
    · rw [List.length_append, List.length_take]
      omega
  have hb : ({ r with phase := .body total (got ++ pre) } : Receiver).feed mem b =
      { r with phase := .overrun } := by
    have hover : h < (got ++ pre ++ [b]).length := by
      rw [List.length_append, hpre]
      exact Nat.lt_succ_self _
    unfold Receiver.feed
    simp only [hheld, Option.getD_some]
    exact (if_neg (by omega)).trans (if_pos hover)
  rw [feedAll_append, feedAll_body hphase hheld (by omega) (by omega), feedAll_cons, hb,
    feedAll_absorbed (by trivial)]

@[simp] theorem announced_header (len : Nat) :
    (r.header mem len).announced = r.announced ++ [len] := by
  unfold Receiver.header
  split <;> rfl

/-! ## What every state keeps -/

theorem header_cases (mem : Nat → Bool) (r : Receiver) (len : Nat) :
    (r.held = none ∧ mem len = false ∧
      r.header mem len = { r with announced := r.announced ++ [len], phase := .refused }) ∨
    ∃ h, (r.held = some h ∨ r.held = none ∧ mem len = true ∧ h = len) ∧
      r.header mem len =
        { r with
          held := some h
          announced := r.announced ++ [len]
          phase := if int32Size ≤ len then .refused else .body len [] } := by
  unfold Receiver.header
  cases hheld : r.held with
  | some h => exact Or.inr ⟨h, Or.inl rfl, rfl⟩
  | none =>
    cases hmem : mem len with
    | false => exact Or.inl ⟨rfl, rfl, rfl⟩
    | true => exact Or.inr ⟨len, Or.inr ⟨rfl, rfl, rfl⟩, rfl⟩

structure Receiver.Valid (mem : Nat → Bool) (r : Receiver) : Prop where
  head : ∀ {got}, r.phase = .head got → got.length < packageHeadLen
  body : ∀ {total got}, r.phase = .body total got →
    (got = [] ∨ got.length < total) ∧ total < int32Size ∧ total ∈ r.announced
  room : ∀ {total got}, r.phase = .body total got → ∃ h, r.held = some h ∧ got.length ≤ h
  /-- what is held was allocated for the first length announced -/
  held : ∀ {h}, r.held = some h → r.announced.head? = some h ∧ mem h = true
  announced : r.held = none → r.phase ≠ .refused → r.announced = []

theorem valid_init : Receiver.init.Valid mem where
  head := fun h => by cases h; decide
  body := fun h => by cases h
  room := fun h => by cases h
  held := fun h => by cases h
  announced := fun _ _ => rfl

theorem valid_header (hr : r.Valid mem) (hphase : r.phase ≠ .refused) (len : Nat) :
    (r.header mem len).Valid mem := by
  rcases header_cases mem r len with ⟨hnone, hmem, heq⟩ | ⟨h, hheld, heq⟩
  · rw [heq]
    exact {
      head := fun h => by cases h
      body := fun h => by cases h
      room := fun h => by cases h
      held := fun h => absurd (hnone.symm.trans h) (by simp)
      announced := fun _ h => absurd rfl h }
  · rw [heq]
    have hfirst : (r.announced ++ [len]).head? = some h ∧ mem h = true := by
      rcases hheld with hsome | ⟨hnone, hmem, rfl⟩
      · rw [List.head?_append, (hr.held hsome).1]
        exact ⟨rfl, (hr.held hsome).2⟩
      · rw [hr.announced hnone hphase]
        exact ⟨rfl, hmem⟩
    rcases Nat.lt_or_ge len int32Size with hlen | hlen
    · rw [if_neg (Nat.not_le.mpr hlen)]
      exact {
        head := fun h => by cases h
        body := fun h => by
          obtain ⟨rfl, rfl⟩ := Phase.body.inj h
          exact ⟨Or.inl rfl, hlen, by simp⟩
        room := fun h => by
          obtain ⟨rfl, rfl⟩ := Phase.body.inj h
          exact ⟨_, rfl, Nat.zero_le _⟩
        held := fun h => by
          obtain rfl := Option.some.inj h
          exact hfirst
        announced := fun h => by cases h }
    · rw [if_pos hlen]
      exact {
        head := fun h => by cases h
        body := fun h => by cases h
        room := fun h => by cases h
        held := fun h => by
          obtain rfl := Option.some.inj h
          exact hfirst
        announced := fun h => by cases h }

/-- A change of the phase alone. -/
theorem Receiver.Valid.setPhase {phase : Phase} (hr : r.Valid mem) (hold : r.phase ≠ .refused)
    (acc : List (List UInt8))
    (head : ∀ {got}, phase = .head got → got.length < packageHeadLen)
    (body : ∀ {total got}, phase = .body total got →
      got.length < total ∧ total < int32Size ∧ total ∈ r.announced ∧
        ∃ h, r.held = some h ∧ got.length ≤ h) :
    Receiver.Valid mem { r with phase, accepted := acc } where
  head := head
  body := fun h => ⟨Or.inr (body h).1, (body h).2.1, (body h).2.2.1⟩
  room := fun h => (body h).2.2.2
  held := hr.held
  announced := fun h _ => hr.announced h hold

theorem valid_feed (hr : r.Valid mem) (b : UInt8) : (r.feed mem b).Valid mem := by
  unfold Receiver.feed
  split
  · rename_i got hphase
    have hold : r.phase ≠ .refused := by simp [hphase]
    split
    · rename_i hshort
      refine hr.setPhase hold r.accepted (fun h => ?_) fun h => by cases h
      obtain rfl := Phase.head.inj h
      exact hshort
    · exact valid_header hr hold _
  · rename_i total got hphase
    have hold : r.phase ≠ .refused := by simp [hphase]
    split
    · exact hr
    · split
      · exact hr.setPhase hold r.accepted (fun h => by cases h) fun h => by cases h
      · rename_i hfit
        split
        · rename_i hshort
          refine hr.setPhase hold r.accepted (fun h => by cases h) fun h => ?_
          obtain ⟨rfl, rfl⟩ := Phase.body.inj h
          obtain ⟨h, hheld, -⟩ := hr.room hphase
          refine ⟨hshort, (hr.body hphase).2.1, (hr.body hphase).2.2, h, hheld, ?_⟩
          simpa [hheld] using Nat.le_of_not_lt hfit
        · refine hr.setPhase hold _ (fun h => ?_) fun h => by cases h
          obtain rfl := Phase.head.inj h
          decide
  · exact hr
  · exact hr

theorem valid_feedAll (hr : r.Valid mem) (bs : List UInt8) : (r.feedAll mem bs).Valid mem := by
  induction bs generalizing r with
  | nil => exact hr
  | cons b bs ih => exact ih (valid_feed hr b)

theorem accepted_feed_grows (b : UInt8) : r.accepted <+: (r.feed mem b).accepted := by
  unfold Receiver.feed
  split
  · split
    · exact List.prefix_refl _
    · rcases header_cases mem r (dataLen _) with ⟨-, -, heq⟩ | ⟨h, -, heq⟩
      · exact heq ▸ List.prefix_refl _
      · exact heq ▸ List.prefix_refl _
  · split
    · exact List.prefix_refl _
    · split
      · exact List.prefix_refl _
      · split
        · exact List.prefix_refl _
        · exact List.prefix_append _ _
  · exact List.prefix_refl _
  · exact List.prefix_refl _

theorem accepted_feedAll_prefix (bs : List UInt8) :
    r.accepted <+: (r.feedAll mem bs).accepted := by
  induction bs generalizing r with
  | nil => exact List.prefix_refl _
  | cons b bs ih => exact (accepted_feed_grows b).trans ih

/-! ## Whole frames -/

/-- The first header decides what is held; from there on the receiver is
as if it had held that from the start. -/
def Receiver.holding (h : Nat) : Receiver := { Receiver.init with held := some h }

section Start

variable {s : List UInt8} (hlen : packageHeadLen ≤ s.length)

include hlen

theorem feedAll_init_of_mem (hmem : mem (dataLen (s.take packageHeadLen)) = true) :
    Receiver.init.feedAll mem s =
      (Receiver.holding (dataLen (s.take packageHeadLen))).feedAll mem s := by
  have hhead : (([] : List UInt8) ++ s.take packageHeadLen).length = packageHeadLen :=
    List.length_take_of_le hlen
  rw [← List.take_append_drop packageHeadLen s, feedAll_append, feedAll_append,
    List.take_append_drop, feedAll_header (r := .init) rfl (by decide) hhead,
    feedAll_header (r := .holding _) rfl (by decide) hhead]
  simp [Receiver.header, Receiver.init, Receiver.holding, hmem]

theorem feedAll_init_of_not_mem (hmem : mem (dataLen (s.take packageHeadLen)) = false) :
    Receiver.init.feedAll mem s =
      { Receiver.init with
        phase := .refused
        announced := [dataLen (s.take packageHeadLen)] } := by
  have hhead : (([] : List UInt8) ++ s.take packageHeadLen).length = packageHeadLen :=
    List.length_take_of_le hlen
  rw [← List.take_append_drop packageHeadLen s, feedAll_append, List.take_append_drop,
    feedAll_header (r := .init) rfl (by decide) hhead]
  simp only [Receiver.header, Receiver.init, hmem, List.nil_append, Option.isNone_none,
    Bool.not_false, Bool.and_self, if_true]
  exact feedAll_absorbed (by trivial)

end Start

/-- Behind a header from the second one on. -/
def Receiver.opened (r : Receiver) (len : Nat) : Receiver :=
  { r with announced := r.announced ++ [len], phase := .body len [] }

theorem header_of_held {h len : Nat} (hheld : r.held = some h) (hlen : len < int32Size) :
    r.header mem len = r.opened len := by
  unfold Receiver.header Receiver.opened
  simp [hheld, Nat.not_le.mpr hlen]

theorem feedAll_packHead {h len : Nat} (hphase : r.phase = .head []) (hheld : r.held = some h)
    (hlen : len < int32Size) :
    r.feedAll mem (packHead len) = r.opened len := by
  have hhead : ([] ++ packHead len).length = packageHeadLen := by
    rw [List.nil_append, length_packHead]
  rw [feedAll_header hphase (by decide) hhead, List.nil_append,
    dataLen_packHead (Nat.lt_trans hlen (by decide)), header_of_held hheld hlen]

section Frame

variable {h : Nat} {p : List UInt8} (hphase : r.phase = .head []) (hheld : r.held = some h)
  (hlen : p.length < int32Size)

include hphase hheld hlen

theorem feedAll_frame (hne : p ≠ []) (hfit : p.length ≤ h) :
    r.feedAll mem (streamCallPack p) =
      { r with announced := r.announced ++ [p.length], accepted := r.accepted ++ [p] } := by
  unfold streamCallPack
  rw [feedAll_append, feedAll_packHead hphase hheld hlen,
    feedAll_last (r := r.opened p.length) rfl hheld hne rfl hfit, ← hphase]
  rfl

/-- A frame that is empty or does not fit is the last thing the receiver
sees. -/
theorem feedAll_badFrame (hbad : p = [] ∨ h < p.length) :
    (r.feedAll mem (streamCallPack p)).Absorbed ∧
      (r.feedAll mem (streamCallPack p)).accepted = r.accepted := by
  unfold streamCallPack
  rw [feedAll_append, feedAll_packHead hphase hheld hlen]
  rcases hbad with rfl | hlong
  · exact ⟨rfl, rfl⟩
  · rw [feedAll_long (r := r.opened p.length) rfl hheld (Nat.zero_le _) hlong hlong]
    exact ⟨trivial, rfl⟩

end Frame

theorem feedAll_goodFrames {h : Nat} {ps : List (List UInt8)} (hphase : r.phase = .head [])
    (hheld : r.held = some h) (hlen : ∀ p ∈ ps, p.length < int32Size)
    (hgood : ∀ p ∈ ps, p ≠ [] ∧ p.length ≤ h) :
    r.feedAll mem (ps.flatMap streamCallPack) =
      { r with
        announced := r.announced ++ ps.map List.length
        accepted := r.accepted ++ ps } := by
  induction ps generalizing r with
  | nil => simp
  | cons p ps ih =>
    obtain ⟨⟨hne, hfit⟩, hrest⟩ := List.forall_mem_cons.mp hgood
    obtain ⟨hp, hlen⟩ := List.forall_mem_cons.mp hlen
    rw [List.flatMap_cons, feedAll_append, feedAll_frame hphase hheld hp hne hfit,
      ih (r := { r with
        announced := r.announced ++ [p.length]
        accepted := r.accepted ++ [p] }) hphase hheld hlen hrest]
    simp

/-- Of the frames at the front of a stream the receiver accepts all only if
each has a payload and the allocation has room for it. -/
theorem good_of_accepted {h : Nat} {ps : List (List UInt8)} {rest : List UInt8}
    (hphase : r.phase = .head []) (hheld : r.held = some h)
    (hlen : ∀ p ∈ ps, p.length < int32Size)
    (hacc : r.accepted ++ ps <+:
      (r.feedAll mem (ps.flatMap streamCallPack ++ rest)).accepted) :
    ∀ p ∈ ps, p ≠ [] ∧ p.length ≤ h := by
  induction ps generalizing r with
  | nil => simp
  | cons p ps ih =>
    obtain ⟨hp, hlen⟩ := List.forall_mem_cons.mp hlen
    rw [List.flatMap_cons, List.append_assoc, feedAll_append] at hacc
    by_cases hgood : p ≠ [] ∧ p.length ≤ h
    · rw [feedAll_frame hphase hheld hp hgood.1 hgood.2] at hacc
      exact List.forall_mem_cons.mpr ⟨hgood, ih (r := { r with
        announced := r.announced ++ [p.length]
        accepted := r.accepted ++ [p] }) hphase hheld hlen (by simpa using hacc)⟩
    · have hbad : p = [] ∨ h < p.length := by
        by_cases hnil : p = []
        · exact Or.inl hnil
        · exact Or.inr (Nat.lt_of_not_le fun hle => hgood ⟨hnil, hle⟩)
      obtain ⟨habs, hsame⟩ := feedAll_badFrame hphase hheld hp hbad
      rw [feedAll_absorbed habs, hsame] at hacc
      exact absurd hacc.length_le (by simp)

/-- Before its last byte a frame is not accepted. -/
theorem accepted_partFrame {h n : Nat} {p : List UInt8} (hphase : r.phase = .head [])
    (hheld : r.held = some h) (hlen : p.length < int32Size) (hfit : p.length ≤ h)
    (hn : n < (streamCallPack p).length) :
    (r.feedAll mem ((streamCallPack p).take n)).accepted = r.accepted := by
  rw [length_streamCallPack] at hn
  rcases Nat.lt_or_ge n packageHeadLen with hhead | hhead
  · have hshort : ([] ++ (streamCallPack p).take n).length < packageHeadLen := by
      rw [List.nil_append, List.length_take]
      omega
    rw [feedAll_head hphase hshort]
  · have htake : (streamCallPack p).take n = packHead p.length ++ p.take (n - packageHeadLen) := by
      rw [streamCallPack, List.take_append, length_packHead, List.take_of_length_le (by simpa)]
    have hpart : ([] ++ p.take (n - packageHeadLen)).length < p.length := by
      rw [List.nil_append, List.length_take]
      omega
    rw [htake, feedAll_append, feedAll_packHead hphase hheld hlen,
      feedAll_body (r := r.opened p.length) rfl hheld hpart (by omega)]
    rfl

/-- The payloads whose frames are among the first `n` bytes. -/
def completed : List (List UInt8) → Nat → List (List UInt8)
  | [], _ => []
  | p :: ps, n =>
      if (streamCallPack p).length ≤ n then p :: completed ps (n - (streamCallPack p).length)
      else []

theorem accepted_take_of_held {h : Nat} {ps : List (List UInt8)} (hphase : r.phase = .head [])
    (hheld : r.held = some h) (hlen : ∀ p ∈ ps, p.length < int32Size)
    (hgood : ∀ p ∈ ps, p ≠ [] ∧ p.length ≤ h) (n : Nat) :
    (r.feedAll mem ((ps.flatMap streamCallPack).take n)).accepted =
      r.accepted ++ completed ps n := by
  induction ps generalizing r n with
  | nil => simp [completed]
  | cons p ps ih =>
    obtain ⟨⟨hne, hfit⟩, hrest⟩ := List.forall_mem_cons.mp hgood
    obtain ⟨hp, hlen⟩ := List.forall_mem_cons.mp hlen
    unfold completed
    rw [List.flatMap_cons]
    split
    · rename_i hn
      rw [List.take_append, List.take_of_length_le hn, feedAll_append,
        feedAll_frame hphase hheld hp hne hfit,
        ih (r := { r with
          announced := r.announced ++ [p.length]
          accepted := r.accepted ++ [p] }) hphase hheld hlen hrest]
      simp
    · rename_i hn
      rw [List.take_append_of_le_length (by omega),
        accepted_partFrame hphase hheld hp hfit (by omega), List.append_nil]

/-! ## Streams of frames from the start -/

/-- There is memory for the first payload, each of the others fits into
what was allocated for it, and none is empty. -/
def Receivable (mem : Nat → Bool) (ps : List (List UInt8)) : Prop :=
  ∀ first ∈ ps.head?, mem first.length = true ∧ ∀ p ∈ ps, p ≠ [] ∧ p.length ≤ first.length

instance (mem : Nat → Bool) (ps : List (List UInt8)) : Decidable (Receivable mem ps) :=
  inferInstanceAs (Decidable (∀ first ∈ ps.head?, _))

/-- The first length a stream of frames announces. -/
theorem dataLen_stream {p : List UInt8} (ps : List (List UInt8)) (hp : p.length < int32Size) :
    dataLen (((p :: ps).flatMap streamCallPack).take packageHeadLen) = p.length := by
  rw [List.flatMap_cons, streamCallPack, List.append_assoc,
    List.take_left' (length_packHead p.length)]
  exact dataLen_packHead (Nat.lt_trans hp (by decide))

theorem feedAll_receivable {ps : List (List UInt8)} (hlen : ∀ p ∈ ps, p.length < int32Size)
    (h : Receivable mem ps) :
    (Receiver.init.feedAll mem (ps.flatMap streamCallPack)).phase = .head [] ∧
      (Receiver.init.feedAll mem (ps.flatMap streamCallPack)).accepted = ps ∧
      (Receiver.init.feedAll mem (ps.flatMap streamCallPack)).held = ps.head?.map List.length := by
  cases ps with
  | nil => exact ⟨rfl, rfl, rfl⟩
  | cons p ps =>
    obtain ⟨hmem, hgood⟩ := h p rfl
    have hp := hlen p List.mem_cons_self
    have hhead := dataLen_stream ps hp
    rw [feedAll_init_of_mem (by simp [packageHeadLen]; omega) (by rwa [hhead]), hhead,
      feedAll_goodFrames rfl rfl hlen hgood]
    exact ⟨rfl, rfl, rfl⟩

theorem receivable_of_accepted {ps : List (List UInt8)} (rest : List UInt8)
    (hlen : ∀ p ∈ ps, p.length < int32Size)
    (h : ps <+: (Receiver.init.feedAll mem (ps.flatMap streamCallPack ++ rest)).accepted) :
    Receivable mem ps := by
  cases ps with
  | nil => simp [Receivable]
  | cons p ps =>
    have hp := hlen p List.mem_cons_self
    have hlong : packageHeadLen ≤ ((p :: ps).flatMap streamCallPack).length := by
      simp [packageHeadLen]
      omega
    have hlong' : packageHeadLen ≤ ((p :: ps).flatMap streamCallPack ++ rest).length := by
      rw [List.length_append]
      omega
    have hhead : dataLen (((p :: ps).flatMap streamCallPack ++ rest).take packageHeadLen) =
        p.length := by
      rw [List.take_append_of_le_length hlong]
      exact dataLen_stream ps hp
    cases hmem : mem p.length with
    | false =>
      rw [feedAll_init_of_not_mem hlong' (by rwa [hhead])] at h
      exact absurd h (by simp [Receiver.init])
    | true =>
      rw [feedAll_init_of_mem hlong' (by rwa [hhead]), hhead] at h
      simp only [Receivable, List.head?_cons, Option.mem_some_iff, forall_eq']
      exact ⟨hmem, good_of_accepted (r := .holding p.length) rfl rfl hlen h⟩

theorem accepted_take {ps : List (List UInt8)} (hlen : ∀ p ∈ ps, p.length < int32Size)
    (h : Receivable mem ps) (n : Nat) :
    (Receiver.init.feedAll mem ((ps.flatMap streamCallPack).take n)).accepted =
      completed ps n := by
  cases ps with
  | nil => simp [completed, Receiver.init]
  | cons p ps =>
    obtain ⟨hmem, hgood⟩ := h p rfl
    have hp := hlen p List.mem_cons_self
    rcases Nat.lt_or_ge n packageHeadLen with hn | hn
    · have hshort : ([] ++ ((p :: ps).flatMap streamCallPack).take n).length <
          packageHeadLen := by
        rw [List.nil_append, List.length_take]
        omega
      rw [feedAll_head (r := .init) rfl hshort, completed, if_neg]
      · rfl
      · rw [length_streamCallPack]
        omega
    · have hhead := dataLen_stream ps hp
      have hlong : packageHeadLen ≤ (((p :: ps).flatMap streamCallPack).take n).length := by
        simp [packageHeadLen] at hn ⊢
        omega
      have htake : (((p :: ps).flatMap streamCallPack).take n).take packageHeadLen =
          ((p :: ps).flatMap streamCallPack).take packageHeadLen := by
        rw [List.take_take, Nat.min_eq_left hn]
      rw [feedAll_init_of_mem hlong (by rwa [htake, hhead]), htake, hhead]
      exact (accepted_take_of_held rfl rfl hlen hgood n).trans (List.nil_append _)

/-! ## Behind the last frame -/

/-- The receiver accepts nothing of `bs`, and goes on to its end or
refuses it. -/
def Receiver.Rejects (mem : Nat → Bool) (r : Receiver) (bs : List UInt8) : Prop :=
  (r.feedAll mem bs).accepted = r.accepted ∧
    ((r.feedAll mem bs).phase = .refused ∨ ¬ (r.feedAll mem bs).Absorbed)

/-- A payload that is there to its end is accepted. -/
theorem accepted_of_whole {h : Nat} (hphase : r.phase = .body total []) (hheld : r.held = some h)
    (hpos : 0 < total) (hfit : total ≤ h) (hlen : total ≤ bs.length) :
    (r.feedAll mem bs).accepted ≠ r.accepted := by
  have htake : ([] ++ bs.take total).length = total := List.length_take_of_le hlen
  have hne : bs.take total ≠ [] := by
    intro hnil
    rw [hnil] at htake
    exact Nat.ne_of_gt hpos htake.symm
  rw [← List.take_append_drop total bs, feedAll_append,
    feedAll_last hphase hheld hne htake hfit]
  intro hsame
  have hgrow : r.accepted ++ [[] ++ bs.take total] <+: r.accepted := by
    conv => rhs; rw [← hsame]
    exact accepted_feedAll_prefix (r := { r with
      phase := .head []
      accepted := r.accepted ++ [[] ++ bs.take total] }) (bs.drop total)
  have := hgrow.length_le
  rw [List.length_append] at this
  exact Nat.not_succ_le_self _ this

theorem rejects_body {h : Nat} (hphase : r.phase = .body total []) (hheld : r.held = some h) :
    r.Rejects mem bs ↔ 0 < total ∧ bs.length < total ∧ bs.length ≤ h := by
  unfold Receiver.Rejects
  rcases Nat.eq_zero_or_pos total with rfl | hpos
  · have habs : r.Absorbed := by simp [Receiver.Absorbed, hphase]
    rw [feedAll_absorbed habs]
    simp [hphase, habs]
  · by_cases hwhole : total ≤ h ∧ total ≤ bs.length
    · exact iff_of_false
        (fun hrej => accepted_of_whole hphase hheld hpos hwhole.1 hwhole.2 hrej.1) (by omega)
    · rcases Nat.lt_or_ge h bs.length with hover | hfit
      · rw [feedAll_long hphase hheld (Nat.zero_le _) hover (by omega)]
        exact iff_of_false (by simp [Receiver.Absorbed]) (by omega)
      · rw [feedAll_body hphase hheld (show ([] ++ bs).length < total by simp; omega) hfit]
        exact iff_of_true ⟨rfl, Or.inr (Nat.ne_of_gt hpos)⟩ (by omega)

/-- Less than a header, or a header for which there is no memory, or with
a length that no `int` holds, or with a payload that is cut short within
the allocation. -/
def RestRejected (mem : Nat → Bool) (held : Option Nat) (rest : List UInt8) : Prop :=
  rest.length < packageHeadLen ∨
    (held = none ∧ mem (dataLen (rest.take packageHeadLen)) = false) ∨
    int32Size ≤ dataLen (rest.take packageHeadLen) ∨
    (0 < dataLen (rest.take packageHeadLen) ∧
      rest.length < packageHeadLen + dataLen (rest.take packageHeadLen) ∧
      ∀ h ∈ held, rest.length ≤ packageHeadLen + h)

instance (mem : Nat → Bool) (held : Option Nat) (rest : List UInt8) :
    Decidable (RestRejected mem held rest) :=
  inferInstanceAs (Decidable (_ ∨ _))

theorem rejects_rest {rest : List UInt8} (hphase : r.phase = .head []) :
    r.Rejects mem rest ↔ RestRejected mem r.held rest := by
  unfold RestRejected
  rcases Nat.lt_or_ge rest.length packageHeadLen with hshort | hlong
  · unfold Receiver.Rejects
    rw [feedAll_head hphase hshort]
    exact iff_of_true ⟨rfl, Or.inr fun h => h⟩ (Or.inl hshort)
  · have hhead : ([] ++ rest.take packageHeadLen).length = packageHeadLen :=
      List.length_take_of_le hlong
    have hsplit : ∀ len, dataLen (rest.take packageHeadLen) = len →
        r.feedAll mem rest = (r.header mem len).feedAll mem (rest.drop packageHeadLen) := by
      intro len hlen
      rw [← hlen, ← List.nil_append (rest.take packageHeadLen),
        ← feedAll_header hphase (by decide) hhead, ← feedAll_append, List.take_append_drop]
    generalize dataLen (rest.take packageHeadLen) = len at hsplit ⊢
    unfold Receiver.Rejects
    rw [hsplit len rfl]
    rcases header_cases mem r len with ⟨hnone, hmem, heq⟩ | ⟨h, hheld, heq⟩
    · rw [heq, feedAll_absorbed (by trivial)]
      exact iff_of_true ⟨rfl, Or.inl rfl⟩ (Or.inr (Or.inl ⟨hnone, hmem⟩))
    · rw [heq]
      rcases Nat.lt_or_ge len int32Size with hint | hint
      · rw [if_neg (Nat.not_le.mpr hint)]
        have hbody : Receiver.Rejects mem { r with
            held := some h
            announced := r.announced ++ [len]
            phase := .body len [] } (rest.drop packageHeadLen) ↔ _ := rejects_body rfl rfl
        refine hbody.trans ?_
        rw [List.length_drop]
        rcases hheld with hsome | ⟨hnone, hmem, rfl⟩
        · simp only [hsome, Option.mem_some_iff, forall_eq', reduceCtorEq, false_and, false_or]
          omega
        · simp only [hnone, hmem, Option.not_mem_none, false_imp_iff, implies_true, and_true,
            Bool.true_eq_false, and_false, false_or]
          omega
      · rw [if_pos hint, feedAll_absorbed (by trivial)]
        exact iff_of_true ⟨rfl, Or.inl rfl⟩ (Or.inr (Or.inr (Or.inl hint)))

/-! ## The lengths announced -/

/-- No length is beyond an `int` or the allocation, which has the first
length, if there is one. -/
def HeadersFit (mem : Nat → Bool) (lens : List Nat) : Prop :=
  ∀ first ∈ lens.head?, mem first = true → ∀ len ∈ lens, len < int32Size ∧ len ≤ first

instance (mem : Nat → Bool) (lens : List Nat) : Decidable (HeadersFit mem lens) :=
  inferInstanceAs (Decidable (∀ first ∈ lens.head?, _))

theorem headersFit_of_append {lens lens' : List Nat} (h : HeadersFit mem (lens ++ lens')) :
    HeadersFit mem lens := by
  intro first hfirst hmem len hlen
  exact h first (by rw [List.head?_append, hfirst]; rfl) hmem len (List.mem_append_left _ hlen)

theorem headers_of_lt {s : List UInt8} (h : s.length < packageHeadLen) : headers s = [] := by
  rw [headers, if_pos h]

theorem headers_of_le {s : List UInt8} (h : packageHeadLen ≤ s.length) :
    headers s =
      dataLen (s.take packageHeadLen) ::
        if dataLen (s.take packageHeadLen) = 0 then []
        else headers (s.drop (packageHeadLen + dataLen (s.take packageHeadLen))) := by
  rw [headers, if_neg (by omega)]

/-- A payload that does not end, or does not fit, is followed by no
header. -/
theorem announced_body {h : Nat} (hphase : r.phase = .body total []) (hheld : r.held = some h)
    (hstop : total = 0 ∨ h < total ∨ bs.length < total) :
    (r.feedAll mem bs).announced = r.announced := by
  rcases Nat.eq_zero_or_pos total with rfl | hpos
  · rw [feedAll_absorbed (by simp [Receiver.Absorbed, hphase])]
  · rcases Nat.lt_or_ge h total with hlong | hfit
    · rcases Nat.lt_or_ge h bs.length with hover | hpart
      · rw [feedAll_long hphase hheld (Nat.zero_le _) hover hlong]
      · rw [feedAll_body hphase hheld (Nat.lt_of_le_of_lt hpart hlong) hpart]
    · have hpart : bs.length < total := by omega
      rw [feedAll_body hphase hheld hpart (Nat.le_trans (Nat.le_of_lt hpart) hfit)]

/-- The receiver sees the headers of the stream, all of them as long as
the lengths fit. -/
theorem announced_of_held {h : Nat} {s : List UInt8} (hphase : r.phase = .head [])
    (hheld : r.held = some h) :
    ∃ lens, (r.feedAll mem s).announced = r.announced ++ lens ∧ lens <+: headers s ∧
      ((∀ len ∈ lens, len < int32Size ∧ len ≤ h) → lens = headers s) := by
  induction hn : s.length using Nat.strong_induction_on generalizing r s with
  | _ n ih =>
    rcases Nat.lt_or_ge s.length packageHeadLen with hshort | hlong
    · have hpart : ([] ++ s).length < packageHeadLen := by simpa using hshort
      rw [feedAll_head hphase hpart, headers_of_lt hshort]
      exact ⟨[], by simp, List.prefix_refl _, fun _ => rfl⟩
    · have hhead : ([] ++ s.take packageHeadLen).length = packageHeadLen :=
        List.length_take_of_le hlong
      rw [headers_of_le hlong]
      generalize hlen : dataLen (s.take packageHeadLen) = len
      have hsplit : r.feedAll mem s =
          (r.header mem len).feedAll mem (s.drop packageHeadLen) := by
        rw [← hlen, ← List.nil_append (s.take packageHeadLen),
          ← feedAll_header hphase (by decide) hhead, ← feedAll_append, List.take_append_drop]
      have hone : [len] <+: len :: if len = 0 then []
          else headers (s.drop (packageHeadLen + len)) := by simp
      rw [hsplit]
      rcases Nat.lt_or_ge len int32Size with hint | hint
      · rw [header_of_held hheld hint]
        by_cases hstop : len = 0 ∨ h < len ∨ (s.drop packageHeadLen).length < len
        · rw [announced_body (r := r.opened len) rfl hheld hstop]
          refine ⟨[len], rfl, hone, fun hgood => ?_⟩
          have hfit := (hgood len List.mem_cons_self).2
          split
          · rfl
          · rw [headers_of_lt]
            rw [List.length_drop] at hstop ⊢
            simp only [packageHeadLen] at hstop ⊢
            omega
        · have hend : ([] ++ (s.drop packageHeadLen).take len).length = len :=
            List.length_take_of_le (by omega)
          have hpos : (s.drop packageHeadLen).take len ≠ [] := by
            intro hnil
            rw [hnil] at hend
            exact hstop (Or.inl hend.symm)
          rw [← List.take_append_drop len (s.drop packageHeadLen), feedAll_append,
            feedAll_last (r := r.opened len) rfl hheld hpos hend (by omega), List.drop_drop,
            if_neg (by omega)]
          obtain ⟨lens, hann, hpre, hall⟩ := ih (s.drop (packageHeadLen + len)).length
            (by rw [List.length_drop]; simp only [packageHeadLen] at hlong ⊢; omega)
            (r := { r with
              announced := r.announced ++ [len]
              phase := .head []
              accepted := r.accepted ++ [[] ++ (s.drop packageHeadLen).take len] })
            rfl hheld rfl
          refine ⟨len :: lens, ?_, List.cons_prefix_cons.mpr ⟨rfl, hpre⟩, fun hgood => ?_⟩
          · exact hann.trans (by simp)
          · rw [hall (List.forall_mem_cons.mp hgood).2]
      · have hrefused : (r.header mem len).phase = .refused := by
          unfold Receiver.header
          simp [hheld, hint]
        rw [feedAll_absorbed (by simp [Receiver.Absorbed, hrefused]), announced_header]
        exact ⟨[len], rfl, hone, fun hgood =>
          absurd (hgood len List.mem_cons_self).1 (Nat.not_lt.mpr hint)⟩

theorem headersFit_iff_of_mem {first : Nat} {lens : List Nat} (hfirst : lens.head? = some first)
    (hmem : mem first = true) :
    HeadersFit mem lens ↔ ∀ len ∈ lens, len < int32Size ∧ len ≤ first := by
  simp [HeadersFit, hfirst, hmem]

theorem headersFit_announced (s : List UInt8) :
    HeadersFit mem (Receiver.init.feedAll mem s).announced ↔ HeadersFit mem (headers s) := by
  rcases Nat.lt_or_ge s.length packageHeadLen with hshort | hlong
  · have hpart : ([] ++ s).length < packageHeadLen := by simpa using hshort
    rw [feedAll_head (r := .init) rfl hpart, headers_of_lt hshort]
    rfl
  · have hheaders := headers_of_le hlong
    generalize hfirst : dataLen (s.take packageHeadLen) = first at hheaders
    cases hmem : mem first with
    | false =>
      rw [feedAll_init_of_not_mem hlong (by rwa [hfirst]), hheaders, hfirst]
      simp [HeadersFit, hmem]
    | true =>
      rw [feedAll_init_of_mem hlong (by rwa [hfirst]), hfirst]
      have hheld : (Receiver.holding first).held = some first := rfl
      obtain ⟨lens, hann, hpre, hall⟩ := announced_of_held (s := s) rfl hheld
      have hlens : lens.head? = some first := by
        cases lens with
        | nil =>
          rw [hheaders] at hall
          exact absurd (hall (by simp)) (by simp)
        | cons len lens =>
          rw [hheaders] at hpre
          rw [(List.cons_prefix_cons.mp hpre).1, List.head?_cons]
      rw [hann, show (Receiver.holding first).announced = [] from rfl, List.nil_append,
        headersFit_iff_of_mem hlens hmem, headersFit_iff_of_mem (by rw [hheaders]; rfl) hmem]
      constructor
      · intro hgood
        exact hall hgood ▸ hgood
      · intro hgood len hlen
        exact hgood len (hpre.subset hlen)

end Training.Rpc
