/-
Training.PubSub.BrokerTheorems — each message reaches the subscribers of
its topic.

While no two names in use have their first 31 bytes in common, and longer
names have one subscriber at most (`Fits`), each topic is the one of a
name and has exactly the subscribers that were accepted for it (`Inv`).
A message is then given once to each of them, in the order of publication,
and to no other (`delivered_of_fits`). A longer name gets a second topic
with its second subscriber, which no message reaches (`lost_message`).
-/
import Mathlib.Data.List.Count
import Training.Lib.Machine
import Training.Lib.Ring
import Training.Lib.Roster
import Training.PubSub.Broker

namespace Training.PubSub

open Training.Lib

variable {s : State} {topics : List Topic} {accepted : List Acceptance} {name : Str} {i k : Nat}

/-- The bytes of a name that a topic keeps. -/
def Str.kept (name : Str) : List UInt8 := name.val.take (nameSize - 1)

/-- The name that a reader finds in a topic or in a message. -/
def Topic.text (t : Topic) : List UInt8 := cString nameSize t.name

def Message.text (msg : Message) : List UInt8 := cString nameSize msg.topicName

/-! ## Steps that fit -/

/-- There is room for a subscriber of the name. -/
def HasRoom (s : State) (name : Str) : Prop :=
  match s.topics.findIdx? fun t => t.named name with
  | some i => ∀ t ∈ s.topics[i]?, t.subscribers.length < maxSubscribers
  | none => s.topics.length < maxTopics

def SubscribeFits (s : State) (name : Str) : Prop :=
  (∀ a ∈ s.accepted, Str.kept a.name = Str.kept name → a.name = name) ∧
    (name.val.length < nameSize ∨ ∀ a ∈ s.accepted, a.name ≠ name) ∧
    ∀ p ∈ s.published.drop s.handled, p.message.text = Str.kept name → p.name = name

def PublishFits (s : State) (name : Str) (stack : Message) : Prop :=
  if name.val.length < nameSize - 1 ∨ stack.topicName (nameSize - 1) = 0 then
    ∀ a ∈ s.accepted, Str.kept a.name = Str.kept name → a.name = name
  else ∀ a ∈ s.accepted, a.name ≠ name

/-- The condition on a step of a run. -/
def Fits (s : State) : Event → Prop
  | .subscribe name => HasRoom s name → SubscribeFits s name
  | .publish name _ stack => s.queue.size ≠ queueCapacity → PublishFits s name stack
  | .consume => True

/-! ## Names -/

theorem length_kept_lt (name : Str) : (Str.kept name).length < nameSize := by
  have hle : (Str.kept name).length ≤ nameSize - 1 := List.length_take_le ..
  exact Nat.lt_of_le_of_lt hle (by decide)

theorem kept_of_lt (h : name.val.length < nameSize) : Str.kept name = name.val :=
  List.take_of_length_le (Nat.le_pred_of_lt h)

/-- A new topic has the bytes of its name that fit. -/
theorem text_new (name : Str) (subscribers : List Nat) :
    Topic.text ⟨strncpy (fun _ => 0) name (nameSize - 1), subscribers⟩ = Str.kept name :=
  (cString_strncpy name.property).trans (if_pos (Or.inr rfl))

/-- A message has them too, and the last byte of the stack where the name
fills the rest. -/
theorem text_message (name : Str) (content : Nat → UInt8) (stack : Nat → UInt8) :
    Message.text ⟨content, strncpy stack name (nameSize - 1)⟩ =
      if name.val.length < nameSize - 1 ∨ stack (nameSize - 1) = 0 then Str.kept name
      else Str.kept name ++ [stack (nameSize - 1)] :=
  cString_strncpy name.property

/-! ## Subscribers -/

/-- The subscribers that were accepted for `name`. -/
def subscribersOf (accepted : List Acceptance) (name : Str) : List Nat :=
  (List.range accepted.length).filter fun i => (accepted[i]?.map Acceptance.name) = some name

theorem mem_subscribersOf :
    i ∈ subscribersOf accepted name ↔ ∃ a, accepted[i]? = some a ∧ a.name = name := by
  unfold subscribersOf
  rw [List.mem_filter, List.mem_range, decide_eq_true_iff, Option.map_eq_some_iff]
  refine ⟨fun h => h.2, fun ⟨a, ha, hname⟩ => ⟨?_, a, ha, hname⟩⟩
  exact (List.getElem?_eq_some_iff.mp ha).1

theorem nodup_subscribersOf (accepted : List Acceptance) (name : Str) :
    (subscribersOf accepted name).Nodup :=
  List.nodup_range.filter _

theorem subscribersOf_append (accepted : List Acceptance) (a : Acceptance) (name : Str) :
    subscribersOf (accepted ++ [a]) name =
      subscribersOf accepted name ++ if a.name = name then [accepted.length] else [] := by
  unfold subscribersOf
  rw [List.length_append, List.length_singleton, List.range_succ, List.filter_append]
  congr 1
  · refine List.filter_congr fun j hj => ?_
    rw [List.getElem?_append_left (List.mem_range.mp hj)]
  · by_cases hname : a.name = name
    · simp [hname]
    · simp [hname]

/-! ## The invariant -/

/-- The ring has what is published and not handled, in order; each handled
publication has been given once to each subscriber of its topic that was
there, and to no other, and to each in order. -/
structure Delivered (s : State) : Prop where
  waiting : s.msg.toList ++ Ring.elems s.queue.buffer queueCapacity s.queue.out s.queue.size =
    (s.published.drop s.handled).map Publication.message
  once : ∀ k p, k < s.handled → s.published[k]? = some p → ∀ i a, s.accepted[i]? = some a →
    a.name = p.name → a.since ≤ k → s.invoked.count (i, k) = 1
  named : ∀ i k, (i, k) ∈ s.invoked → ∃ a p, s.accepted[i]? = some a ∧ s.published[k]? = some p ∧
    a.name = p.name
  ordered : ∀ i, ((s.invoked.filter fun e => e.1 = i).map Prod.snd).Pairwise (· < ·)

structure Inv (s : State) : Prop where
  delivered : Delivered s
  names : ∀ a ∈ s.accepted, ∀ b ∈ s.accepted, Str.kept a.name = Str.kept b.name → a.name = b.name
  texts : (s.topics.map Topic.text).Nodup
  topics : ∀ t ∈ s.topics, ∃ a ∈ s.accepted, t.text = Str.kept a.name ∧
    t.subscribers = subscribersOf s.accepted a.name
  covered : ∀ a ∈ s.accepted, ∃ t ∈ s.topics, t.text = Str.kept a.name
  since : ∀ a ∈ s.accepted, a.since ≤ s.published.length
  into : s.queue.into = (s.queue.out + s.queue.size) % queueCapacity
  out : s.queue.out < queueCapacity
  size : s.queue.size ≤ queueCapacity
  handled : s.handled ≤ s.published.length
  past : ∀ e ∈ s.invoked, e.2 < s.handled
  known : ∀ p ∈ s.published.drop s.handled, ∀ a ∈ s.accepted, p.message.text = Str.kept a.name →
    a.name = p.name
  reaches : ∀ k p, s.handled ≤ k → s.published[k]? = some p → ∀ a ∈ s.accepted, a.name = p.name →
    a.since ≤ k → p.message.text = Str.kept p.name

/-! ## `publish` -/

theorem inv_publish (h : Inv s) {content : Str} {stack : Message}
    (hfits : Fits s (.publish name content stack)) : Inv (publish s name content stack) := by
  unfold publish
  dsimp only
  by_cases hfull : s.queue.size = queueCapacity
  · rwa [if_pos hfull]
  rw [if_neg hfull]
  have hfits := hfits hfull
  have hroom : s.queue.size < queueCapacity := Nat.lt_of_le_of_ne h.size hfull
  generalize hmsg : (⟨strncpy stack.content content (maxMsgLen - 1),
    strncpy stack.topicName name (nameSize - 1)⟩ : Message) = msg
  have htext := text_message name (strncpy stack.content content (maxMsgLen - 1)) stack.topicName
  rw [hmsg] at htext
  have hdrop : (s.published ++ [Publication.mk name msg]).drop s.handled =
      s.published.drop s.handled ++ [Publication.mk name msg] :=
    List.drop_append_of_le_length h.handled
  have hget : ∀ (k : Nat) (p : Publication), k < s.published.length →
      (s.published ++ [Publication.mk name msg])[k]? = some p →
      s.published[k]? = some p := by
    intro k p hk hp
    rwa [List.getElem?_append_left hk] at hp
  have hkeep : ∀ (k : Nat) (p : Publication), s.published[k]? = some p →
      (s.published ++ [Publication.mk name msg])[k]? = some p := by
    intro k p hp
    rwa [List.getElem?_append_left (List.getElem?_eq_some_iff.mp hp).1]
  unfold PublishFits at hfits
  refine ⟨⟨?_, fun k p hk hp => h.delivered.once k p hk (hget k p (Nat.lt_of_lt_of_le hk h.handled) hp),
    fun i k hmem => ?_, h.delivered.ordered⟩, h.names, h.texts, h.topics, h.covered, fun a ha => ?_,
    ?_, h.out, hroom, ?_, h.past, fun p hp a ha htexta => ?_, fun k p hk hp a ha hname hsince => ?_⟩
  · dsimp only [queuePush]
    rw [h.into, Ring.elems_push hroom, ← List.append_assoc, h.delivered.waiting, hdrop, List.map_append]
    rfl
  · obtain ⟨a, p, ha, hp, hname⟩ := h.delivered.named i k hmem
    exact ⟨a, p, ha, hkeep k p hp, hname⟩
  · dsimp only
    rw [List.length_append]
    exact Nat.le_add_right_of_le (h.since a ha)
  · dsimp only [queuePush]
    rw [h.into, Nat.mod_add_mod, Nat.add_assoc]
  · dsimp only
    rw [List.length_append]
    exact Nat.le_add_right_of_le h.handled
  · dsimp only at hp
    rw [hdrop] at hp
    rcases List.mem_append.mp hp with hp | hp
    · exact h.known p hp a ha htexta
    · rw [List.mem_singleton.mp hp] at htexta ⊢
      dsimp only at htexta ⊢
      rw [htext] at htexta
      split at hfits
      · rename_i hfit
        rw [if_pos hfit] at htexta
        exact hfits a ha htexta.symm
      · rename_i hlong
        -- the byte of the stack makes the text too long for a topic
        rw [if_neg hlong] at htexta
        have hlen := length_kept_lt a.name
        rw [← htexta, List.length_append] at hlen
        have hkept : (Str.kept name).length = nameSize - 1 :=
          List.length_take_of_le (Nat.le_of_not_lt fun hlt => hlong (Or.inl hlt))
        simp [hkept, nameSize] at hlen
  · dsimp only at hp hk
    by_cases hlast : k < s.published.length
    · exact h.reaches k p hk (hget k p hlast hp) a ha hname hsince
    · rw [List.getElem?_append_right (Nat.le_of_not_lt hlast)] at hp
      obtain rfl : (⟨name, msg⟩ : Publication) = p := by
        have hmem := List.mem_of_getElem? hp
        exact (List.mem_singleton.mp hmem).symm
      dsimp only
      rw [htext]
      split at hfits
      · rename_i hfit
        rw [if_pos hfit]
      · exact absurd hname (hfits a ha)

/-! ## `consumer_thread` -/

theorem inv_pop (h : Inv s) (hmsg : s.msg = none) (hsize : s.queue.size ≠ 0) :
    Inv { s with queue := (queuePop s.queue).1, msg := some (queuePop s.queue).2 } := by
  obtain ⟨size, hsize⟩ := Nat.exists_eq_succ_of_ne_zero hsize
  have hwaiting := h.delivered.waiting
  rw [hmsg, hsize, Ring.elems_pop, Nat.mod_eq_of_lt h.out] at hwaiting
  refine ⟨⟨?_, h.delivered.once, h.delivered.named, h.delivered.ordered⟩, h.names, h.texts, h.topics,
    h.covered, h.since, ?_, Nat.mod_lt _ (by decide), Nat.le_trans (Nat.sub_le _ _) h.size, h.handled,
    h.past, h.known, h.reaches⟩
  · dsimp only [queuePop]
    rw [hsize]
    exact hwaiting
  · dsimp only [queuePop]
    rw [h.into, hsize, Nat.mod_add_mod]
    congr 1
    omega

/-- The subscribers of the first topic with the name of the message are the
ones that were accepted for it. -/
theorem receivers_spec (h : Inv s) {p : Publication} (hp : s.published[s.handled]? = some p) :
    (receivers s.topics p.message).Nodup ∧
      (∀ i ∈ receivers s.topics p.message, ∃ a, s.accepted[i]? = some a ∧ a.name = p.name) ∧
      ∀ i a, s.accepted[i]? = some a → a.name = p.name → a.since ≤ s.handled →
        i ∈ receivers s.topics p.message := by
  have hpending : p ∈ s.published.drop s.handled := by
    refine List.mem_of_getElem? (i := 0) ?_
    rw [List.getElem?_drop, Nat.add_zero]
    exact hp
  unfold receivers
  cases hfind : s.topics.find? fun t => t.named (cString nameSize p.message.topicName) with
  | none =>
    refine ⟨List.nodup_nil, fun i hi => (nomatch hi), fun i a ha hname hsince => ?_⟩
    have hmem := List.mem_of_getElem? ha
    have htext := h.reaches _ p (Nat.le_refl _) hp a hmem hname hsince
    obtain ⟨t, ht, hkept⟩ := h.covered a hmem
    have hno := List.find?_eq_none.mp hfind t ht
    refine absurd (decide_eq_true ?_) hno
    exact (hkept.trans (hname ▸ htext.symm))
  | some t =>
    have ht := List.mem_of_find?_eq_some hfind
    have htrue := List.find?_some hfind
    have htext : t.text = p.message.text := of_decide_eq_true htrue
    obtain ⟨a, ha, hkept, hsubs⟩ := h.topics t ht
    have hname := h.known p hpending a ha (htext.symm.trans hkept)
    dsimp only
    rw [hsubs, hname]
    refine ⟨nodup_subscribersOf _ _, fun i hi => mem_subscribersOf.mp hi, fun i b hb hbname _ =>
      mem_subscribersOf.mpr ⟨b, hb, hbname⟩⟩

/-- The message that is dispatched is the oldest one that has not been. -/
theorem Inv.oldest (h : Inv s) {msg : Message} (hmsg : s.msg = some msg) :
    ∃ p, s.published[s.handled]? = some p ∧ p.message = msg ∧
      s.published.drop s.handled = p :: s.published.drop (s.handled + 1) ∧
      Ring.elems s.queue.buffer queueCapacity s.queue.out s.queue.size =
        (s.published.drop (s.handled + 1)).map Publication.message := by
  have hwaiting := h.delivered.waiting
  rw [hmsg] at hwaiting
  cases hdrop : s.published.drop s.handled with
  | nil =>
    rw [hdrop] at hwaiting
    cases hwaiting
  | cons p ps =>
    rw [hdrop, List.map_cons] at hwaiting
    obtain ⟨rfl, hrest⟩ := List.cons.inj hwaiting
    have hget : (s.published.drop s.handled)[0]? = some p := by rw [hdrop]; rfl
    have htail : s.published.drop (s.handled + 1) = ps := by
      rw [← List.drop_drop, hdrop]
      rfl
    rw [htail]
    exact ⟨p, by rwa [List.getElem?_drop, Nat.add_zero] at hget, rfl, rfl, hrest⟩

/-- A message is handed to each of its receivers once. -/
theorem count_calls {is : List Nat} (h : is.Nodup) (n i k : Nat) :
    (is.map fun i => (i, n)).count (i, k) = if k = n ∧ i ∈ is then 1 else 0 := by
  have hinj : Function.Injective fun i : Nat => (i, n) := fun a b hab => (Prod.mk.inj hab).1
  by_cases hk : k = n
  · rw [hk, List.count_map_of_injective _ _ hinj i, h.count]
    simp
  · rw [if_neg fun hboth => hk hboth.1]
    refine List.count_eq_zero.mpr fun hmem => ?_
    obtain ⟨j, -, hj⟩ := List.mem_map.mp hmem
    exact hk (Prod.mk.inj hj).2.symm

theorem pairwise_calls {is : List Nat} (h : is.Nodup) (n i : Nat) :
    (((is.map fun i => (i, n)).filter fun e => e.1 = i).map Prod.snd).Pairwise (· < ·) := by
  have hone : ((is.map fun i => (i, n)).filter fun e => e.1 = i).length ≤ 1 := by
    rw [List.filter_map, List.length_map]
    calc _ = (is.filter (· = i)).length := rfl
      _ = is.count i := by rw [List.filter_eq, List.length_replicate]
      _ ≤ 1 := by
        rw [h.count]
        split <;> omega
  cases hcalls : (is.map fun i => (i, n)).filter fun e => e.1 = i with
  | nil => exact List.Pairwise.nil
  | cons e es =>
    rw [hcalls] at hone
    have hnil : es = [] := List.length_eq_zero_iff.mp (by simpa using hone)
    rw [hnil]
    exact List.pairwise_singleton _ _

theorem inv_dispatch (h : Inv s) {msg : Message} (hmsg : s.msg = some msg) :
    Inv { s with
      msg := none
      handled := s.handled + 1
      invoked := s.invoked ++ (receivers s.topics msg).map fun i => (i, s.handled) } := by
  obtain ⟨p, hp, rfl, hdrop, hrest⟩ := h.oldest hmsg
  have hlt := (List.getElem?_eq_some_iff.mp hp).1
  obtain ⟨hnodup, hnamed, hreached⟩ := receivers_spec h hp
  refine ⟨⟨hrest, fun k q hk hq i a ha hname hsince => ?_, fun i k hmem => ?_, fun i => ?_⟩,
    h.names, h.texts, h.topics, h.covered, h.since, h.into, h.out, h.size, hlt, fun e he => ?_,
    fun q hq => ?_, fun k q hk => h.reaches k q (Nat.le_of_succ_le hk)⟩
  · dsimp only at hk hq ha ⊢
    rw [List.count_append, count_calls hnodup]
    rcases Nat.lt_succ_iff_lt_or_eq.mp hk with hlt | rfl
    · rw [if_neg fun hboth => Nat.ne_of_lt hlt hboth.1]
      exact h.delivered.once k q hlt hq i a ha hname hsince
    · rw [hp] at hq
      cases hq
      rw [if_pos ⟨rfl, hreached i a ha hname hsince⟩, List.count_eq_zero.mpr fun hmem =>
        Nat.lt_irrefl _ (h.past _ hmem)]
  · rcases List.mem_append.mp hmem with hmem | hmem
    · exact h.delivered.named i k hmem
    · obtain ⟨j, hj, heq⟩ := List.mem_map.mp hmem
      obtain ⟨rfl, rfl⟩ := Prod.mk.inj heq
      obtain ⟨a, ha, hname⟩ := hnamed j hj
      exact ⟨a, p, ha, hp, hname⟩
  · dsimp only
    rw [List.filter_append, List.map_append, List.pairwise_append]
    refine ⟨h.delivered.ordered i, pairwise_calls hnodup _ i, fun a ha b hb => ?_⟩
    obtain ⟨e, he, rfl⟩ := List.mem_map.mp ha
    obtain ⟨f, hf, rfl⟩ := List.mem_map.mp hb
    obtain ⟨j, -, rfl⟩ := List.mem_map.mp (List.mem_filter.mp hf).1
    exact h.past e (List.mem_filter.mp he).1
  · rcases List.mem_append.mp he with he | he
    · exact Nat.lt_succ_of_lt (h.past e he)
    · obtain ⟨j, -, rfl⟩ := List.mem_map.mp he
      exact Nat.lt_succ_self _
  · refine h.known q ?_
    rw [hdrop]
    exact List.mem_cons_of_mem _ hq

/-! ## `subscribe` -/

/-- A subscriber is refused, joins the topic of its name, or gets a new one. -/
theorem subscribe_cases (s : State) (name : Str) :
    subscribe s name = s ∨ HasRoom s name ∧ ∃ topics,
      subscribe s name = { s with
        topics, accepted := s.accepted ++ [{ name, since := s.published.length }] } ∧
      ((∃ i t, s.topics[i]? = some t ∧ t.text = name.val ∧
          topics = s.topics.set i (t.add s.accepted.length)) ∨
        (∀ t ∈ s.topics, t.text ≠ name.val) ∧ topics = s.topics ++
          [⟨strncpy (fun _ => 0) name (nameSize - 1), [s.accepted.length]⟩]) := by
  unfold subscribe getOrCreateTopic HasRoom
  cases hfind : s.topics.findIdx? fun t => t.named name with
  | some i =>
    obtain ⟨hi, htrue, -⟩ := List.findIdx?_eq_some_iff_getElem.mp hfind
    have hget : s.topics[i]? = some s.topics[i] := List.getElem?_eq_getElem hi
    dsimp only
    rw [hget]
    dsimp only
    by_cases hroom : s.topics[i].subscribers.length ≥ maxSubscribers
    · rw [if_pos hroom]
      exact Or.inl rfl
    · rw [if_neg hroom]
      refine Or.inr ⟨fun t ht => ?_, _, rfl,
        Or.inl ⟨i, s.topics[i], hget, of_decide_eq_true htrue, rfl⟩⟩
      obtain rfl : s.topics[i] = t := by simpa using ht
      exact Nat.lt_of_not_le hroom
  | none =>
    dsimp only
    by_cases hfull : s.topics.length ≥ maxTopics
    · rw [if_pos hfull]
      exact Or.inl rfl
    · rw [if_neg hfull]
      dsimp only
      rw [List.getElem?_append_right (Nat.le_refl _), Nat.sub_self]
      refine Or.inr ⟨Nat.lt_of_not_le hfull, _, rfl, Or.inr ⟨fun t ht heq => ?_, ?_⟩⟩
      · have hno := List.findIdx?_eq_none_iff.mp hfind t ht
        rw [show t.named name = true from decide_eq_true heq] at hno
        cases hno
      · rw [List.set_append_right _ _ (Nat.le_refl _), Nat.sub_self]
        rfl

/-- The topics after a subscriber has been accepted for `name`: one of them
is its, and the others are as they were. -/
theorem inv_accept (h : Inv s) (hfits : SubscribeFits s name) {topics : List Topic}
    (htexts : (topics.map Topic.text).Nodup)
    (hold : ∀ t ∈ s.topics, t.text ∈ topics.map Topic.text)
    (hnew : ∀ t ∈ topics, (t ∈ s.topics ∧ t.text ≠ Str.kept name) ∨
      t.text = Str.kept name ∧ t.subscribers = subscribersOf s.accepted name ++ [s.accepted.length])
    (hmem : Str.kept name ∈ topics.map Topic.text) :
    Inv { s with topics, accepted := s.accepted ++ [{ name, since := s.published.length }] } := by
  obtain ⟨hnames, -, hpending⟩ := hfits
  have haccepted : ∀ a ∈ s.accepted ++ [Acceptance.mk name s.published.length],
      a ∈ s.accepted ∨ a = ⟨name, s.published.length⟩ := by
    intro a ha
    rcases List.mem_append.mp ha with ha | ha
    · exact Or.inl ha
    · exact Or.inr (List.mem_singleton.mp ha)
  have hget : ∀ (i : Nat) (a : Acceptance), (s.accepted ++ [Acceptance.mk name s.published.length])[i]? =
      some a → s.accepted[i]? = some a ∨ a.since = s.published.length := by
    intro i a ha
    by_cases hi : i < s.accepted.length
    · rw [List.getElem?_append_left hi] at ha
      exact Or.inl ha
    · rw [List.getElem?_append_right (Nat.le_of_not_lt hi)] at ha
      have hlast := List.mem_singleton.mp (List.mem_of_getElem? ha)
      exact Or.inr (hlast ▸ rfl)
  refine ⟨⟨h.delivered.waiting, fun k p hk hp i a ha hname hsince => ?_, fun i k hik => ?_,
    h.delivered.ordered⟩, fun a ha b hb hkept => ?_, htexts, fun t ht => ?_, fun a ha => ?_,
    fun a ha => ?_,
    h.into, h.out, h.size, h.handled, h.past, fun p hp a ha htext => ?_,
    fun k p hk hp a ha hname hsince => ?_⟩
  · rcases hget i a ha with ha | ha
    · exact h.delivered.once k p hk hp i a ha hname hsince
    · have hle := h.handled
      dsimp only at hk
      omega
  · obtain ⟨a, p, ha, hp, hname⟩ := h.delivered.named i k hik
    refine ⟨a, p, ?_, hp, hname⟩
    rwa [List.getElem?_append_left (List.getElem?_eq_some_iff.mp ha).1]
  · rcases haccepted a ha with ha | rfl
    · rcases haccepted b hb with hb | rfl
      · exact h.names a ha b hb hkept
      · exact hnames a ha hkept
    · rcases haccepted b hb with hb | rfl
      · exact (hnames b hb hkept.symm).symm
      · rfl
  · rcases hnew t ht with ⟨ht, hne⟩ | ⟨htext, hsubs⟩
    · obtain ⟨a, ha, hkept, hsubs⟩ := h.topics t ht
      refine ⟨a, List.mem_append_left _ ha, hkept, ?_⟩
      rw [subscribersOf_append, if_neg, List.append_nil, hsubs]
      rintro rfl
      exact hne hkept
    · refine ⟨⟨name, s.published.length⟩, List.mem_append_right _ List.mem_cons_self, htext, ?_⟩
      rw [subscribersOf_append, if_pos rfl, hsubs]
  · rcases haccepted a ha with ha | rfl
    · obtain ⟨t, ht, hkept⟩ := h.covered a ha
      obtain ⟨t', ht', htext⟩ := List.mem_map.mp (hold t ht)
      exact ⟨t', ht', htext.trans hkept⟩
    · obtain ⟨t, ht, htext⟩ := List.mem_map.mp hmem
      exact ⟨t, ht, htext⟩
  · rcases haccepted a ha with ha | rfl
    · exact h.since a ha
    · exact Nat.le_refl _
  · rcases haccepted a ha with ha | rfl
    · exact h.known p hp a ha htext
    · exact (hpending p hp htext).symm
  · rcases haccepted a ha with ha | rfl
    · exact h.reaches k p hk hp a ha hname hsince
    · exact absurd (List.getElem?_eq_some_iff.mp hp).1 (Nat.not_lt.mpr hsince)

theorem inv_subscribe (h : Inv s) (hfits : Fits s (.subscribe name)) : Inv (subscribe s name) := by
  rcases subscribe_cases s name with hsame | ⟨hroom, topics, heq, hcases⟩
  · rwa [hsame]
  have hfits := hfits hroom
  rw [heq]
  rcases hcases with ⟨i, t, hget, htext, rfl⟩ | ⟨hno, rfl⟩
  · -- the topic of the name gets one subscriber more
    obtain ⟨a, ha, hkept, hsubs⟩ := h.topics t (List.mem_of_getElem? hget)
    have hkeptname : Str.kept name = name.val := by
      refine kept_of_lt ?_
      rw [← htext, hkept]
      exact length_kept_lt a.name
    have haname : a.name = name := hfits.1 a ha (hkept.symm.trans (htext.trans hkeptname.symm))
    have hmap : (s.topics.set i (t.add s.accepted.length)).map Topic.text = s.topics.map Topic.text :=
      Roster.map_set hget rfl
    refine inv_accept h hfits ?_ (fun t' ht' => ?_) (fun t' ht' => ?_) ?_
    · rw [hmap]
      exact h.texts
    · rw [hmap]
      exact List.mem_map_of_mem ht'
    · obtain ⟨j, hj⟩ := List.getElem?_of_mem ht'
      by_cases hij : i = j
      · subst hij
        have hi := (List.getElem?_eq_some_iff.mp hget).1
        rw [List.getElem?_set_self hi] at hj
        cases hj
        refine Or.inr ⟨htext.trans hkeptname.symm, ?_⟩
        rw [← haname, ← hsubs]
        rfl
      · rw [List.getElem?_set_ne hij] at hj
        refine Or.inl ⟨List.mem_of_getElem? hj, fun htext' => hij ?_⟩
        have hi := (List.getElem?_eq_some_iff.mp hget).1
        refine (List.getElem?_inj (l := s.topics.map Topic.text) (by simpa using hi) h.texts).mp ?_
        rw [List.getElem?_map, List.getElem?_map, hget, hj, Option.map_some, Option.map_some, htext',
          htext, hkeptname]
    · rw [hmap]
      exact List.mem_map.mpr ⟨t, List.mem_of_getElem? hget, htext.trans hkeptname.symm⟩
  · -- the name is new
    have hnone : ∀ t ∈ s.topics, t.text ≠ Str.kept name := by
      intro t ht htext
      obtain ⟨a, ha, hkept, -⟩ := h.topics t ht
      have haname := hfits.1 a ha (hkept.symm.trans htext)
      rcases hfits.2.1 with hlt | hall
      · exact hno t ht (htext.trans (kept_of_lt hlt))
      · exact hall a ha haname
    have hempty : subscribersOf s.accepted name = [] := by
      refine List.eq_nil_iff_forall_not_mem.mpr fun i hi => ?_
      obtain ⟨a, ha, rfl⟩ := mem_subscribersOf.mp hi
      obtain ⟨t, ht, htext⟩ := h.covered a (List.mem_of_getElem? ha)
      exact hnone t ht htext
    refine inv_accept h hfits ?_ (fun t ht => ?_) (fun t ht => ?_) ?_
    · rw [List.map_append, List.map_singleton, text_new]
      refine (List.perm_append_singleton _ _).nodup_iff.mpr
        (List.nodup_cons.mpr ⟨fun hmem => ?_, h.texts⟩)
      obtain ⟨t, ht, htext⟩ := List.mem_map.mp hmem
      exact hnone t ht htext
    · rw [List.map_append]
      exact List.mem_append_left _ (List.mem_map_of_mem ht)
    · rcases List.mem_append.mp ht with ht | ht
      · exact Or.inl ⟨ht, hnone t ht⟩
      · rw [List.mem_singleton.mp ht, hempty]
        exact Or.inr ⟨text_new _ _, rfl⟩
    · rw [List.map_append, List.map_singleton, text_new]
      simp

/-! ## Runs -/

theorem inv_step (h : Inv s) {e : Event} (hfits : Fits s e) : Inv (step s e) := by
  cases e with
  | subscribe name => exact inv_subscribe h hfits
  | publish name content stack => exact inv_publish h hfits
  | consume =>
    show Inv (consumerThread s)
    unfold consumerThread
    cases hmsg : s.msg with
    | none =>
      dsimp only
      by_cases hsize : s.queue.size = 0
      · rwa [if_pos hsize]
      · rw [if_neg hsize]
        exact inv_pop h hmsg hsize
    | some msg => exact inv_dispatch h hmsg

theorem inv_init (buffer : Nat → Message) : Inv (State.init buffer) where
  delivered :=
    { waiting := rfl
      once := fun k _ hk => absurd hk (Nat.not_lt_zero k)
      named := fun _ _ h => (nomatch h)
      ordered := fun _ => List.Pairwise.nil }
  names := fun _ h => (nomatch h)
  texts := List.nodup_nil
  topics := fun _ h => (nomatch h)
  covered := fun _ h => (nomatch h)
  since := fun _ h => (nomatch h)
  into := rfl
  out := (by decide : 0 < queueCapacity)
  size := Nat.zero_le _
  handled := Nat.le_refl 0
  past := fun _ h => (nomatch h)
  known := fun _ h => (nomatch h)
  reaches := fun _ _ _ _ _ h => (nomatch h)

/-- Two turns of the consumer handle a message, if there is one. -/
theorem handles_next (h : Inv s) (hlt : s.handled < s.published.length) :
    s.handled < (run step s [.consume, .consume]).handled := by
  show s.handled < (consumerThread (consumerThread s)).handled
  cases hmsg : s.msg with
  | none =>
    have hsize : s.queue.size ≠ 0 := by
      intro hzero
      have hlen := congrArg List.length h.delivered.waiting
      rw [hmsg, hzero] at hlen
      simp only [Option.toList_none, List.nil_append, Ring.length_elems, List.length_map,
        List.length_drop] at hlen
      omega
    have hpop : consumerThread s =
        { s with queue := (queuePop s.queue).1, msg := some (queuePop s.queue).2 } := by
      unfold consumerThread
      rw [hmsg]
      exact if_neg hsize
    rw [hpop]
    exact Nat.lt_succ_self _
  | some msg =>
    have hdispatch : (consumerThread s).handled = s.handled + 1 ∧ (consumerThread s).msg = none := by
      unfold consumerThread
      rw [hmsg]
      exact ⟨rfl, rfl⟩
    have hsecond : (consumerThread (consumerThread s)).handled = (consumerThread s).handled := by
      generalize consumerThread s = s' at hdispatch
      unfold consumerThread
      rw [hdispatch.2]
      dsimp only
      split <;> rfl
    rw [hsecond, hdispatch.1]
    exact Nat.lt_succ_self _

/-- In a run whose steps fit, each message reaches exactly the subscribers of
its topic, once and in order, and the consumer gets to every message. -/
theorem delivered_of_fits (buffer : Nat → Message) {events : List Event}
    (hfits : Along step Fits (State.init buffer) events) :
    Throughout step (fun s => Delivered s ∧
      (s.handled < s.published.length → s.handled < (run step s [.consume, .consume]).handled))
      (State.init buffer) events :=
  throughout_of_step (fun _ _ h hfit => inv_step h hfit)
    (fun _ h => ⟨h.delivered, handles_next h⟩) hfits
    (inv_init buffer)

def blank : Message := { content := fun _ => 0, topicName := fun _ => 0 }

def news : Str := ⟨[110, 101, 119, 115], by decide⟩

/-- A message before the topic has a subscriber, and one after. -/
theorem delivered_of_fits_news :
    let events : List Event := [.publish news news blank, .subscribe news, .publish news news blank]
    Throughout step (fun s => Delivered s ∧
      (s.handled < s.published.length → s.handled < (run step s [.consume, .consume]).handled))
      (State.init fun _ => blank) events := by
  have htext : ∀ a ∈ [Acceptance.mk news 1], Str.kept a.name = Str.kept news → a.name = news := by
    intro a ha _
    rw [List.mem_singleton.mp ha]
  have hfits : Along step Fits (State.init fun _ => blank)
      [.publish news news blank, .subscribe news, .publish news news blank] :=
    ⟨fun _ => fun _ ha => (nomatch ha),
      fun _ => ⟨fun _ ha => (nomatch ha), Or.inl (by decide), fun p hp _ => by
        rw [List.mem_singleton.mp hp]⟩,
      fun _ => htext, trivial⟩
  exact delivered_of_fits (fun _ => blank) hfits

/-- A name of 32 bytes, and a run with two subscribers for it. -/
def longName : Str := ⟨List.replicate 32 97, by decide⟩

def lostRun : State :=
  run step (State.init fun _ => blank)
    [.subscribe longName, .subscribe longName, .publish longName news blank, .consume, .consume]

/-- The name gets a topic for each of its subscribers, and the message reaches
the first one only. -/
theorem lost_message : ¬Delivered lostRun := by
  intro h
  have hinvoked : lostRun.invoked = [(0, 0)] := by decide +kernel
  have hhandled : lostRun.handled = 1 := by decide +kernel
  have haccepted : lostRun.accepted.map (fun a => (a.name, a.since)) =
      [(longName, 0), (longName, 0)] := by
    decide +kernel
  have hpublished : lostRun.published.map Publication.name = [longName] := by decide +kernel
  obtain ⟨p, hp, hpname⟩ : ∃ p, lostRun.published[0]? = some p ∧ p.name = longName := by
    rw [← Option.map_eq_some_iff, ← List.getElem?_map, hpublished]
    rfl
  obtain ⟨a, ha, haname⟩ : ∃ a, lostRun.accepted[1]? = some a ∧ (a.name, a.since) = (longName, 0) := by
    rw [← Option.map_eq_some_iff (f := fun a : Acceptance => (a.name, a.since)), ← List.getElem?_map,
      haccepted]
    rfl
  obtain ⟨hname, hsince⟩ := Prod.mk.inj haname
  have honce := h.once 0 p (by rw [hhandled]; decide) hp 1 a ha (hname.trans hpname.symm)
    (Nat.le_of_eq hsince)
  rw [hinvoked] at honce
  exact absurd honce (by decide)

end Training.PubSub
