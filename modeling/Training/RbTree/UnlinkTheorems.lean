/-
Training.RbTree.UnlinkTheorems — `rb_erase` and `rb_replace_node`.

A node with two children leaves its place to the one behind it
(`takePlace_holds`). In each case one node with at most one child goes out
of the tree, and what is below its place is mended by a colour or by the
loop (`unlink_mended`). `rbErase_spec` puts the cases together.
-/
import Training.RbTree.EraseTheorems

namespace Training.RbTree

open Training.Lib.RedBlack Training.Lib.RedBlack.ColorTree

universe u

variable {α : Type u} [DecidableEq α] {m m' : Memory α} {t s l r : ColorTree α}
  {x y z pa succ : α} {c c' : Color} {d : Side} {p q v tmp : Option α} {path front rest : Spine α}
  {f : Frame α} {k n fuel : Nat} {link : Memory.Link α}

/-! ## Replacement -/

omit [DecidableEq α] in
theorem Same.trans {m'' : Memory α} (h : Same m m' x) (h' : Same m' m'' x) : Same m m'' x :=
  ⟨h'.parent.trans h.parent, h'.color.trans h.color, fun e => (h'.child e).trans (h.child e)⟩

theorem same_setParentIf (h : tmp ≠ some x) : Same m (m.setParentIf tmp q) x :=
  ⟨by simp [h], by simp, fun e => by simp⟩

theorem same_setParentColorIf (h : tmp ≠ some x) : Same m (m.setParentColorIf tmp q c) x :=
  ⟨by simp [h], by simp [h], fun e => by simp⟩

theorem setParentIf_holds (h : Holds m p t) (hnodup : t.toList.Nodup) :
    Holds (m.setParentIf t.root q) q t := by
  rw [← recolor_of_color (t := t) rfl]
  refine h.reparent hnodup (fun y hy => ⟨?_, ?_, fun e => ?_⟩) fun y _ hy => ⟨?_, ?_, fun e => ?_⟩
  · simp [hy]
  · obtain ⟨c, l, r, rfl⟩ := root_eq_some_iff.mp hy
    simpa using h.2.1
  · simp
  · simp [hy]
  · simp
  · simp

/-- `y` is all set to stand in the place of `x`, and then stands there. -/
theorem takePlace_holds (hpath : HoldsPath m (some x) path) (hx : x ∉ values path)
    (hy : m.parent y = top path ∧ m.color y = c ∧ m.child .left y = l.root ∧
      m.child .right y = r.root) (hl : Holds m (some y) l) (hr : Holds m (some y) r)
    (hnodup : (plug (.node c l y r) path).toList.Nodup) :
    Represents (m.rbChangeChild x (some y) (top path)) (plug (.node c l y r) path) := by
  obtain ⟨-, hvalues, hdisj⟩ := nodup_plug.mp hnodup
  have hholds : Holds m (top path) (.node c l y r) :=
    ⟨hy.1, hy.2.1, hy.2.2.1, hy.2.2.2, hl, hr⟩
  rw [hpath.changeChild hx]
  exact represents_plug.mpr ⟨hpath.store hvalues,
    hholds.congr fun z hz => same_store (hdisj hz), hnodup⟩

theorem rbReplaceNode_represents (h : Represents m (plug (.node c l x r) path))
    (hy : y ∉ (plug (.node c l x r) path).toList) :
    Represents (m.rbReplaceNode x y) (plug (.node c l y r) path) := by
  obtain ⟨hpath, ⟨hparent, hcolor, hleft, hright, hl, hr⟩, hnodup⟩ := represents_plug.mp h
  have hnodup' := hnodup
  rw [(toList_plug_perm _ _).mem_iff] at hy
  simp only [nodup_plug, ← join_left, nodup_join, List.disjoint_left, mem_join, not_or, or_imp,
    forall_and, forall_eq, List.mem_append] at hnodup' hy
  have hlroot : ∀ z, l.root = some z → z ∈ l.toList := fun z => mem_of_root
  have hrroot : ∀ z, r.root = some z → z ∈ r.toList := fun z => mem_of_root
  have hxy : x ≠ y := by grind
  have hly : l.root ≠ some y := by grind
  have hry : r.root ≠ some y := by grind
  obtain ⟨m₁, hm₁⟩ : ∃ m₁, m₁ = ((m.rbSetParentColor y (top path) c).setChild .right y
      r.root).setChild .left y l.root := ⟨_, rfl⟩
  have hreplace : m.rbReplaceNode x y = ((m₁.setParentIf l.root (some y)).setParentIf r.root
      (some y)).rbChangeChild x (some y) (top path) := by
    unfold Memory.rbReplaceNode
    simp [hparent, hcolor, hleft, hright, hxy, hm₁]
  have hsame : ∀ z, z ≠ y → Same m m₁ z := fun z hz => by
    rw [hm₁]
    exact ⟨by simp [hz], by simp [hz], fun e => by simp [hz]⟩
  have hsame₂ : ∀ z, z ≠ y → l.root ≠ some z → r.root ≠ some z → Same m ((m₁.setParentIf l.root
      (some y)).setParentIf r.root (some y)) z := fun z hz hzl hzr =>
    ((hsame z hz).trans (same_setParentIf hzl)).trans (same_setParentIf hzr)
  have hl₁ : Holds (m₁.setParentIf l.root (some y)) (some y) l :=
    setParentIf_holds (hl.congr fun z hz => hsame z (by grind)) (by grind)
  have hr₁ : Holds (m₁.setParentIf l.root (some y)) (some x) r :=
    hr.congr fun z hz => (hsame z (by grind)).trans (same_setParentIf (by grind))
  rw [hreplace]
  refine takePlace_holds (hpath.congr (by simp [hm₁]) fun z hz => hsame₂ z ?_ ?_ ?_) (by grind)
    ⟨?_, ?_, ?_, ?_⟩ (hl₁.congr fun z hz => same_setParentIf (by grind))
    (setParentIf_holds hr₁ (by grind)) ?_
  any_goals grind
  · simp [hm₁, hly, hry]
  · simp [hm₁]
  · simp [hm₁]
  · simp [hm₁]
  · simp only [nodup_plug, ← join_left, nodup_join, List.disjoint_left, mem_join]
    grind

/-! ## One node goes -/

theorem setParentColorIf_store :
    (m.setParentColorIf tmp p c).store v link = (m.store v link).setParentColorIf tmp p c := by
  cases tmp <;> cases link <;> rfl

/-- `s` is put in the hole. -/
theorem fill_holds {hole : Option α} (hpath : HoldsPath m hole path) (hs : Holds m q s)
    (hnodup : (plug s path).toList.Nodup) :
    HoldsPath ((m.store s.root (linkOf path)).setParentColorIf s.root (top path) c) s.root path ∧
      Holds ((m.store s.root (linkOf path)).setParentColorIf s.root (top path) c) (top path)
        (recolor c s) := by
  obtain ⟨hns, hvalues, hdisj⟩ := nodup_plug.mp hnodup
  have hne : ∀ y ∈ values path, s.root ≠ some y := fun y hy hroot => hdisj (mem_of_root hroot) hy
  have hs' : Holds (m.store s.root (linkOf path)) q s :=
    hs.congr fun y hy => same_store (hdisj hy)
  refine ⟨(hpath.store hvalues).congr (by simp) fun y hy => same_setParentColorIf (hne y hy),
    hs'.reparent hns (fun y hy => ?_) fun y _ hy => same_setParentColorIf hy⟩
  simp [hy]

/-- What `rb_erase` does behind `__rb_erase_augmented`. -/
def Memory.rebalance (fuel : Nat) (m : Memory α) (rebalance : Option α) : Option (Memory α) :=
  rebalance.elim (some m) (m.eraseLoop fuel none)

theorem rbErase_eq : m.rbErase fuel x =
    (m.rbEraseAugmented fuel x).bind fun (m, rebalance) => m.rebalance fuel rebalance := by
  rw [Memory.rbErase]
  congr 1
  funext ⟨m, rebalance⟩
  cases rebalance <;> rfl

/-- A node `x` with one child `s` at most is gone: what the rest of
`rb_erase` comes to. -/
theorem unlink_mended (hpath : HoldsPath m s.root path) (hs : Holds m (top path) (recolor .black s))
    (hnodup : (plug s path).toList.Nodup) (hb : WellColored (join d c x .nil s) c n)
    (hfits : Fits path c n) (hfuel : path.length ≤ fuel) :
    Mended (m.rebalance fuel (if s.root = none ∧ c = .black then top path else none)) s path := by
  cases s with
  | node cs ls z rs =>
    rw [if_neg (by simp)]
    cases c with
    | red =>
      obtain ⟨-, hnil, hb⟩ := wellColored_red_iff.mp hb
      obtain ⟨-, rfl⟩ := wellColored_nil_iff.mp hnil
      cases hb
    | black =>
      obtain ⟨-, n, rfl, hnil, hb⟩ := wellColored_black_iff.mp hb
      obtain ⟨-, rfl⟩ := wellColored_nil_iff.mp hnil
      cases cs with
      | black => cases hb
      | red =>
        refine mended_of_holds (by simpa using hpath) hs ?_ hnodup hb.blacken hfits
        rw [toList_plug, toList_plug, toList_recolor]
  | nil =>
    cases c with
    | red =>
      obtain ⟨-, hnil, -⟩ := wellColored_red_iff.mp hb
      obtain ⟨-, rfl⟩ := wellColored_nil_iff.mp hnil
      rw [if_neg (by simp)]
      exact mended_of_holds hpath holds_nil rfl hnodup .nil hfits.toBlack
    | black =>
      obtain ⟨-, n, rfl, hnil, -⟩ := wellColored_black_iff.mp hb
      obtain ⟨-, rfl⟩ := wellColored_nil_iff.mp hnil
      rw [if_pos ⟨rfl, rfl⟩]
      cases path with
      | nil => exact mended_of_holds hpath holds_nil rfl hnodup .nil .root
      | cons f path => exact eraseLoop_spec .nil hfits rfl hpath holds_nil hnodup hfuel

/-- Case 1, and the same for a left child: the node has one child `s` at most. -/
theorem rbErase_single (h : Represents m (plug (join d c x .nil s) path))
    (hb : WellColored (join d c x .nil s) c n) (hfits : Fits path c n)
    (hfuel : path.length ≤ fuel) :
    Mended (m.rbErase fuel x) s path := by
  obtain ⟨hpath, hholds, hnodup⟩ := represents_plug.mp h
  rw [root_join] at hpath
  obtain ⟨hxp, hxc, hnear, hfar, -, hs⟩ := holds_join.mp hholds
  have hnodup' := hnodup
  simp only [nodup_plug, nodup_join, List.disjoint_left, mem_join, or_imp, forall_and,
    forall_eq] at hnodup'
  have hnodup₁ : (plug s path).toList.Nodup := by
    rw [nodup_plug, List.disjoint_left]
    grind
  obtain ⟨hpath₁, hs₁⟩ := fill_holds (c := .black) hpath hs hnodup₁
  have hx : x ∉ values path := by grind
  have herase : m.rbErase fuel x =
      ((m.store s.root (linkOf path)).setParentColorIf s.root (top path) .black).rebalance fuel
        (if s.root = none ∧ c = .black then top path else none) := by
    rw [rbErase_eq, Memory.rbEraseAugmented]
    cases s with
    | nil =>
      have hleft : m.child .left x = none := by cases d <;> assumption
      have hright : m.child .right x = none := by cases d <;> assumption
      simp only [hleft, hright, hxp, hxc, hpath.changeChild hx, root_nil, Memory.setParentColorIf,
        true_and, Option.bind_some]
    | node cs ls z rs =>
      obtain rfl : c = .black := by
        cases c with
        | black => rfl
        | red =>
          obtain ⟨-, hnil, hb⟩ := wellColored_red_iff.mp hb
          obtain ⟨-, rfl⟩ := wellColored_nil_iff.mp hnil
          cases hb
      rw [if_neg (by simp)]
      cases d with
      | left =>
        simp only [show m.child .left x = none from hnear, show m.child .right x = some z from hfar,
          hxp, hxc, hpath.changeChild hx, root_node, Memory.setParentColorIf, Option.bind_some]
      | right =>
        have hdisj := (nodup_plug.mp hnodup₁).2.2
        have hpath' : HoldsPath (m.setParentColorIf (some z) (top path) .black) (some x) path :=
          hpath.congr (by simp) fun y hy => same_setParentColorIf fun heq =>
            hdisj (mem_of_root heq) hy
        have hchange := hpath'.changeChild (v := some z) hx
        rw [setParentColorIf_store] at hchange
        simp only [show m.child .right x = none from hnear, show m.child .left x = some z from hfar,
          hxp, hxc, root_node, Option.bind_some, Memory.setParentColorIf] at hchange ⊢
        rw [hchange]
  rw [herase]
  exact unlink_mended hpath₁ hs₁ hnodup₁ hb hfits hfuel

/-! ## The successor takes the place -/

omit [DecidableEq α] in
theorem successorLoop_spec (h : Holds m (some y) (.node c l x r))
    (hfuel : (ColorTree.node c l x r).height ≤ fuel) :
    ∃ cs s rs front, .node c l x r = plug (.node cs .nil s rs) front ∧
      (∀ f ∈ front, f.side = .left) ∧
        m.successorLoop fuel y x = some ((top front).getD y, s) := by
  induction l generalizing fuel y c x r with
  | nil =>
    obtain - | fuel := fuel
    · simp [height] at hfuel
    · refine ⟨c, x, r, [], rfl, by simp, ?_⟩
      rw [Memory.successorLoop, h.2.2.1]
      rfl
  | node c' l' x' r' ihl _ =>
    obtain - | fuel := fuel
    · simp [height] at hfuel
    · have hfuel' : (ColorTree.node c' l' x' r').height ≤ fuel := by
        simp only [height] at hfuel ⊢
        omega
      obtain ⟨cs, s, rs, front, hplug, hleft, hloop⟩ := ihl h.2.2.2.2.1 hfuel'
      refine ⟨cs, s, rs, front ++ [⟨.left, c, x, r⟩], ?_, ?_, ?_⟩
      · rw [plug_append, ← hplug]
        rfl
      · simpa [or_imp, forall_and] using hleft
      · rw [Memory.successorLoop, h.2.2.1]
        simp only [root_node, hloop]
        cases front <;> rfl

theorem rbSetParentColor_store :
    (m.store v link).rbSetParentColor x p c = (m.rbSetParentColor x p c).store v link := by
  cases link <;> rfl

theorem setParentColorIf_rbSetParent (h : tmp ≠ some x) :
    (m.rbSetParent x q).setParentColorIf tmp p c =
      (m.setParentColorIf tmp p c).rbSetParent x q := by
  cases tmp with
  | none => rfl
  | some y =>
    have hyx : x ≠ y := fun heq => h (congrArg some heq.symm)
    simp only [Memory.setParentColorIf, Memory.rbSetParent, Memory.rbSetParentColor,
      Memory.mk.injEq, and_true]
    constructor
    · funext w
      by_cases hw : w = x
      · simp [hw, hyx]
      · simp [hw]
    · funext w
      by_cases hw : w = x
      · simp [hw, hyx]
      · simp [hw]

theorem replaceBySuccessor_holds (pa : α) (child2 : Option α) (hpath : HoldsPath m (some x) path)
    (hparent : m.parent x = top path) (hcolor : m.color x = c) (hleft : m.child .left x = l.root)
    (hl : Holds m (some x) l) (hz : l.root = some z) (hright : m.child .right succ = r.root)
    (hr : Holds (m.setParentColorIf child2 (some pa) .black) (some succ) r)
    (hchild2 : ∀ y, child2 = some y → y ∈ r.toList)
    (hx : x ∉ (plug (.node c l succ r) path).toList)
    (hnodup : (plug (.node c l succ r) path).toList.Nodup) :
    ∃ m', m.replaceBySuccessor x succ pa child2 =
        some (m', if child2 = none ∧ m.color succ = .black then some pa else none) ∧
      Represents m' (plug (.node c l succ r) path) := by
  have hnodup' := hnodup
  rw [(toList_plug_perm _ _).mem_iff] at hx
  simp only [nodup_plug, ← join_left, nodup_join, List.disjoint_left, mem_join, not_or, or_imp,
    forall_and, forall_eq, List.mem_append] at hnodup' hx
  have hzl : z ∈ l.toList := mem_of_root hz
  obtain ⟨k, hk⟩ : ∃ k, k = (((m.setParentColorIf child2 (some pa) .black).setChild .left succ
      (some z)).rbSetParent z (some succ)).rbSetParentColor succ (top path) c := ⟨_, rfl⟩
  have hsame : ∀ y, y ≠ succ → y ≠ z → child2 ≠ some y → Same m k y := by
    intro y hys hyz hyc
    rw [hk]
    exact ⟨by simp [hys, hyz, hyc], by simp [hys, hyc], fun e => by simp [hys]⟩
  have hcz : child2 ≠ some z := by grind
  have hxz : x ≠ z := by grind
  have hpathk : HoldsPath k (some x) path :=
    hpath.congr (by simp [hk]) fun y hy => hsame y (by grind) (by grind) (by grind)
  refine ⟨k.rbChangeChild x (some succ) (top path), ?_, takePlace_holds hpathk (by grind)
    ⟨?_, ?_, ?_, ?_⟩ ?_ (hr.congr fun y hy => ?_) hnodup⟩
  · have hpath₁ : HoldsPath ((m.setChild .left succ (some z)).rbSetParent z (some succ)) (some x)
        path := by
      refine hpath.congr (by simp) fun y hy => ?_
      have hyz : y ≠ z := by grind
      have hys : y ≠ succ := by grind
      exact ⟨by simp [hyz], by simp, fun e => by simp [hys]⟩
    unfold Memory.replaceBySuccessor
    simp only [hleft, hz, Option.bind_some, Memory.rbSetParent_parent, if_neg hxz,
      Memory.setChild_parent, Memory.rbSetParent_color, Memory.setChild_color, hparent, hcolor,
      hpath₁.changeChild (show x ∉ values path by grind),
      hpathk.changeChild (show x ∉ values path by grind)]
    cases child2 with
    | none => simp [hk, rbSetParentColor_store, Memory.setParentColorIf]
    | some w =>
      have hcomm := setParentColorIf_rbSetParent (m := m.setChild .left succ (some z))
        (q := some succ) (p := some pa) (c := .black) hcz
      simp only [Memory.setParentColorIf] at hcomm hk
      simp only [rbSetParentColor_store, hcomm, hk]
      simp
      rfl
  · simp [hk]
  · simp [hk]
  · have hsz : succ ≠ z := by grind
    simp [hk, hz]
  · have hsz : succ ≠ z := by grind
    simp [hk, hright]
  · rw [← recolor_of_color (t := l) rfl]
    refine hl.reparent (by grind) (fun y hy => ?_) fun y hy hy' => hsame y ?_ ?_ ?_
    any_goals grind
    obtain rfl : z = y := Option.some.inj (hz.symm.trans hy)
    have hsz : z ≠ succ := by grind
    refine ⟨by simp [hk, hsz], ?_, fun e => by simp [hk, hsz]⟩
    obtain ⟨c, l, r, rfl⟩ := root_eq_some_iff.mp hz
    simpa [hk, hsz, hcz] using hl.2.1
  · have hyz : y ≠ z := by grind
    have hys : y ≠ succ := by grind
    rw [hk]
    exact ⟨by simp [hys, hyz], by simp [hys], fun e => by simp [hys]⟩

/-- What is left when `x` is gone. -/
def Erased (m : Memory α) (fuel : Nat) (x : α) (t : ColorTree α) : Prop :=
  ∃ m' t', m.rbErase fuel x = some m' ∧ Represents m' t' ∧ t'.toList = t.toList.erase x ∧
    ∃ j, WellColored t' .black j

omit [DecidableEq α] in
theorem toList_eq_cons (hfront : ∀ f ∈ front, f.side = .left) (cs c' : Color) (succ : α)
    (s : ColorTree α) :
    (plug (.node cs .nil succ s) front).toList = succ :: (plug (recolor c' s) front).toList := by
  rw [toList_plug, toList_plug, before_eq_nil hfront]
  simp

/-- The cases 2 and 3, in the memory `m₁` in which `succ` has been cut out. -/
theorem successor_mended {cs : Color} (m₁ : Memory α) (pa succ : α) (front : Spine α)
    (s : ColorTree α) (htail : m.rbErase fuel x = (m₁.replaceBySuccessor x succ pa s.root).bind
      fun (m, rebalance) => m.rebalance fuel rebalance)
    (hm₁ : ∀ y, y ∉ r.toList → Same m m₁ y) (hroot : m₁.root = m.root)
    (h : Represents m (plug (.node c l x r) path)) (hr : r = plug (.node cs .nil succ s) front)
    (hfront : ∀ f ∈ front, f.side = .left) (hl : l ≠ .nil)
    (hpa : top (front ++ [⟨.right, c, succ, l⟩]) = some pa) (hcs : m₁.color succ = cs)
    (hright : m₁.child .right succ = (plug (recolor .black s) front).root)
    (hholds : Holds (m₁.setParentColorIf s.root (some pa) .black) (some succ)
      (plug (recolor .black s) front))
    (hb : WellColored (plug (.node c l x r) path) .black n)
    (hfuel : (plug (.node c l x r) path).toList.length ≤ fuel) :
    Erased m fuel x (plug (.node c l x r) path) := by
  subst hr
  obtain ⟨hpath, ⟨hxp, hxc, hxl, hxr, hlholds, -⟩, hnodup⟩ := represents_plug.mp h
  have hlist := toList_eq_cons hfront cs .black succ s
  -- the list with `x`, and the list without
  have hwith : (plug (.node c l x (plug (.node cs .nil succ s) front)) path).toList =
      (before path ++ l.toList) ++ x ::
        (succ :: (plug (recolor .black s) front).toList ++ after path) := by
    rw [toList_plug, toList_node, hlist]
    simp
  have hwithout : (plug (.node c l succ (plug (recolor .black s) front)) path).toList =
      (before path ++ l.toList) ++ (succ :: (plug (recolor .black s) front).toList ++
        after path) := by
    rw [toList_plug, toList_node]
    simp
  have hperm := @List.perm_middle _ x (before path ++ l.toList)
    (succ :: (plug (recolor .black s) front).toList ++ after path)
  rw [← hwith, ← hwithout] at hperm
  obtain ⟨hx, hnodup₂⟩ := List.nodup_cons.mp (hperm.nodup_iff.mp hnodup)
  have herase : (plug (.node c l x (plug (.node cs .nil succ s) front)) path).toList.erase x =
      (plug (.node c l succ (plug (recolor .black s) front)) path).toList := by
    rw [hwithout, List.mem_append, not_or] at hx
    rw [hwith, hwithout, List.erase_append_right _ hx.1, List.erase_cons_head]
  obtain ⟨hnt, -, hdisj⟩ := nodup_plug.mp hnodup
  obtain ⟨⟨-, hxr'⟩, -, -, hlr⟩ := (nodup_join (d := .left)).mp hnt
  have hpr : ∀ y ∈ values path, y ∉ (plug (.node cs .nil succ s) front).toList := fun y hy hr =>
    hdisj (by simp [hr]) hy
  obtain ⟨z, hz⟩ : ∃ z, l.root = some z := by
    cases l with
    | nil => exact absurd rfl hl
    | node c l z r => exact ⟨z, rfl⟩
  have hsame : Same m m₁ x := hm₁ x hxr'
  have hchild : ∀ y, s.root = some y → y ∈ (plug (recolor .black s) front).toList := by
    intro y hy
    rw [toList_plug, toList_recolor]
    simp [mem_of_root hy]
  obtain ⟨m', hreplace, hrep⟩ := replaceBySuccessor_holds pa s.root
    (hpath.congr hroot fun y hy => hm₁ y (hpr y hy)) (hsame.parent.trans hxp)
    (hsame.color.trans hxc) ((hsame.child .left).trans hxl)
    (hlholds.congr fun y hy => hm₁ y fun hr => hlr hy hr) hz hright hholds hchild hx
    hnodup₂
  have hplug : plug (.node c l succ (plug (recolor .black s) front)) path =
      plug (recolor .black s) (front ++ ⟨.right, c, succ, l⟩ :: path) := by
    rw [plug_append]
    rfl
  have hplug' : plug (.node c l x (plug (.node cs .nil succ s) front)) path =
      plug (.node cs .nil succ s) (front ++ ⟨.right, c, x, l⟩ :: path) := by
    rw [plug_append]
    rfl
  have htop : top (front ++ ⟨.right, c, succ, l⟩ :: path) = some pa := by
    cases front <;> exact hpa
  obtain ⟨c', n', hbs, hfits⟩ := exists_fits (hplug' ▸ hb)
  obtain rfl := hbs.color_eq
  obtain ⟨hpath', hholds', hnodup'⟩ := represents_plug.mp (hplug ▸ hrep)
  rw [root_recolor] at hpath'
  have hlen : (front ++ ⟨.right, c, succ, l⟩ :: path).length ≤ fuel := by
    have hle := length_le_values (front ++ ⟨.right, c, x, l⟩ :: path)
    have hlength := (toList_plug_perm (.node cs .nil succ s)
      (front ++ ⟨.right, c, x, l⟩ :: path)).length_eq
    rw [← hplug'] at hlength
    simp only [List.length_append, List.length_cons] at hle hlength ⊢
    omega
  have hlists : (plug s (front ++ ⟨.right, c, succ, l⟩ :: path)).toList =
      (plug (recolor .black s) (front ++ ⟨.right, c, succ, l⟩ :: path)).toList := by
    rw [toList_plug, toList_plug, toList_recolor]
  have hmend := unlink_mended (x := succ) (d := .left) hpath' hholds' (hlists ▸ hnodup') hbs
    hfits.rename hlen
  rw [htop] at hmend
  obtain ⟨m₂, t₂, hloop, hrep₂, hlist₂, hj⟩ := hmend
  refine ⟨m₂, t₂, ?_, hrep₂, ?_, hj⟩
  · rw [htail, hreplace, hcs, Option.bind_some]
    exact hloop
  · rw [hlist₂, herase, hplug, hlists]

theorem erase_plug (h : (plug (.node c l x r) path).toList.Nodup) :
    (plug (.node c l x r) path).toList.erase x =
      before path ++ l.toList ++ (r.toList ++ after path) := by
  have hsplit : (plug (.node c l x r) path).toList =
      (before path ++ l.toList) ++ x :: (r.toList ++ after path) := by
    rw [toList_plug, toList_node]
    simp
  rw [hsplit] at h ⊢
  have hx : x ∉ before path ++ l.toList := fun hmem =>
    (List.nodup_append'.mp h).2.2 hmem List.mem_cons_self
  rw [List.erase_append_right _ hx, List.erase_cons_head]

theorem erased_of_mended (h : Mended (m.rbErase fuel x) s path)
    (hlist : (plug s path).toList = t.toList.erase x) : Erased m fuel x t := by
  obtain ⟨m', t', hloop, hrep, hlist', hj⟩ := h
  exact ⟨m', t', hloop, hrep, hlist'.trans hlist, hj⟩

theorem rbErase_case2 {cr : Color}
    (h : Represents m (plug (.node c l x (.node cr .nil y r)) path)) (hl : l ≠ .nil)
    (hb : WellColored (plug (.node c l x (.node cr .nil y r)) path) .black n)
    (hfuel : (plug (.node c l x (.node cr .nil y r)) path).toList.length ≤ fuel) :
    Erased m fuel x (plug (.node c l x (.node cr .nil y r)) path) := by
  obtain ⟨-, ⟨-, -, hxl, hxr, -, hyp, hyc, hyl, hyr, -, hrholds⟩, hnodup⟩ := represents_plug.mp h
  obtain ⟨z, hz⟩ : ∃ z, l.root = some z := by
    cases l with
    | nil => exact absurd rfl hl
    | node c l z r => exact ⟨z, rfl⟩
  obtain ⟨hnt, -, -⟩ := nodup_plug.mp hnodup
  obtain ⟨-, -, hnr, -⟩ := (nodup_join (d := .left)).mp hnt
  obtain ⟨⟨-, hy⟩, -, hnr, -⟩ := (nodup_join (d := .left)).mp hnr
  refine successor_mended m y y [] r ?_
    (fun w _ => ⟨rfl, rfl, fun e => rfl⟩) rfl h rfl (by simp) hl rfl hyc (hyr.trans (by simp)) ?_ hb
    hfuel
  · rw [rbErase_eq, Memory.rbEraseAugmented]
    simp only [hxl, hz, hxr, root_node, hyl, root_nil, hyr]
  · refine hrholds.reparent hnr (fun w hw => ?_) fun w _ hw => same_setParentColorIf hw
    simp [hw]

theorem rbErase_case3 {cr : Color}
    (h : Represents m (plug (.node c l x (.node cr s y r)) path)) (hl : l ≠ .nil) (hs : s ≠ .nil)
    (hb : WellColored (plug (.node c l x (.node cr s y r)) path) .black n)
    (hfuel : (plug (.node c l x (.node cr s y r)) path).toList.length ≤ fuel) :
    Erased m fuel x (plug (.node c l x (.node cr s y r)) path) := by
  obtain ⟨hpath, ⟨hxp, hxc, hxl, hxr, hlholds, hrholds⟩, hnodup⟩ := represents_plug.mp h
  obtain ⟨hyp, hyc, hyl, hyr, hsholds, -⟩ := hrholds
  obtain ⟨z, hz⟩ : ∃ z, l.root = some z := by
    cases l with
    | nil => exact absurd rfl hl
    | node c l z r => exact ⟨z, rfl⟩
  obtain - | ⟨c₁, l₁, x₁, r₁⟩ := s
  · exact absurd rfl hs
  have hheight : (ColorTree.node c₁ l₁ x₁ r₁).height ≤ fuel := by
    have hle := height_le_length (.node c₁ l₁ x₁ r₁)
    rw [toList_plug] at hfuel
    simp only [toList_node, List.length_append, List.length_cons] at hle hfuel
    omega
  obtain ⟨cs, succ, s, front, hplug, hfront, hloop⟩ := successorLoop_spec hsholds hheight
  obtain ⟨pa, hpa⟩ : ∃ pa, pa = (top front).getD y := ⟨_, rfl⟩
  have hright : ColorTree.node cr (.node c₁ l₁ x₁ r₁) y r =
      plug (.node cs .nil succ s) (front ++ [⟨.left, cr, y, r⟩]) := by
    rw [plug_append, ← hplug]
    rfl
  have htop : ∀ rest : Spine α, top (front ++ ⟨.left, cr, y, r⟩ :: rest) = some pa := by
    intro rest
    rw [hpa]
    cases front <;> rfl
  have hsides : ∀ f ∈ front ++ [(⟨.left, cr, y, r⟩ : Frame α)], f.side = .left := by
    simpa [or_imp, forall_and] using hfront
  have hlink : ∀ rest : Spine α, linkOf (front ++ ⟨.left, cr, y, r⟩ :: rest) = .child .left pa := by
    intro rest
    rw [hpa]
    cases front with
    | nil => rfl
    | cons f front => simp [linkOf, hfront f List.mem_cons_self]
  have hwhole : plug (.node c l x (.node cr (.node c₁ l₁ x₁ r₁) y r)) path =
      plug (.node cs .nil succ s) (front ++ ⟨.left, cr, y, r⟩ :: ⟨.right, c, x, l⟩ :: path) := by
    rw [hright, plug_append, plug_append]
    rfl
  obtain ⟨hpath₀, ⟨-, hsc, -, hsr, -, hs₀⟩, hnodup₀⟩ := represents_plug.mp (hwhole ▸ h)
  have hnodup₁ : (plug s (front ++ ⟨.left, cr, y, r⟩ :: ⟨.right, c, x, l⟩ :: path)).toList.Nodup := by
    refine hnodup₀.sublist ?_
    rw [toList_plug, toList_plug]
    simp
  -- the memory in which the successor's child is in its hole
  obtain ⟨hpathA, hsA⟩ := fill_holds (c := .black) hpath₀ hs₀ hnodup₁
  rw [htop, hlink] at hpathA hsA
  obtain ⟨a, ha⟩ : ∃ a, a = (m.store s.root (.child .left pa)).setParentColorIf s.root (some pa)
      .black := ⟨_, rfl⟩
  rw [← ha] at hpathA hsA
  obtain ⟨r', hr'⟩ : ∃ r', r' = plug (recolor .black s) (front ++ [⟨.left, cr, y, r⟩]) := ⟨_, rfl⟩
  have hsplit : ∀ rest : Spine α, front ++ ⟨.left, cr, y, r⟩ :: rest =
      (front ++ [⟨.left, cr, y, r⟩]) ++ rest := by simp
  have hrA : Holds a (some x) r' := by
    have hboth := holds_plug_append.mp ⟨hsplit _ ▸
      (root_recolor (c := .black) (t := s)).symm ▸ hpathA,
      hsplit (⟨.right, c, x, l⟩ :: path) ▸ (htop _).symm ▸ hsA⟩
    exact hr' ▸ hboth.2
  have hroot : r'.root = some y := by
    rw [hr', plug_append, plug_cons, plug_nil, root_join]
  obtain ⟨hnt, -, -⟩ := nodup_plug.mp hnodup
  obtain ⟨-, -, hnr, -⟩ := (nodup_join (d := .left)).mp hnt
  have hlist := toList_eq_cons hsides cs .black succ s
  rw [← hright, ← hr'] at hlist
  obtain ⟨hsucc, hnr'⟩ := List.nodup_cons.mp (hlist ▸ hnr)
  have hy : y ∈ r'.toList := mem_of_root hroot
  have hne : y ≠ succ := fun heq => hsucc (heq ▸ hy)
  have hsy : s.root ≠ some y := by
    intro heq
    have hvalues : y ∈ values (front ++ ⟨.left, cr, y, r⟩ :: ⟨.right, c, x, l⟩ :: path) := by
      simp
    exact (nodup_plug.mp hnodup₁).2.2 (mem_of_root heq) hvalues
  have hpar : pa ∈ r'.toList := by
    have hmem := mem_values_of_top (htop [])
    rw [hr', (toList_plug_perm _ _).mem_iff]
    exact List.mem_append_right _ hmem
  obtain ⟨m₁, hm₁⟩ : ∃ m₁, m₁ = ((m.setChild .left pa s.root).setChild .right succ
      (some y)).rbSetParent y (some succ) := ⟨_, rfl⟩
  have hholds : Holds (m₁.setParentColorIf s.root (some pa) .black) (some succ) r' := by
    have hcomm : m₁.setParentColorIf s.root (some pa) .black =
        (a.setChild .right succ (some y)).rbSetParent y (some succ) := by
      rw [hm₁, setParentColorIf_rbSetParent hsy, ha]
      cases s <;> rfl
    rw [hcomm, ← recolor_of_color (t := r') rfl]
    have hchild : ∀ w, w ≠ succ → ∀ e, ((a.setChild .right succ (some y)).rbSetParent y
        (some succ)).child e w = a.child e w := fun w hw e => by simp [hw]
    refine hrA.reparent hnr' (fun w hw => ⟨?_, ?_, hchild w ?_⟩) fun w hw hw' =>
      ⟨?_, by simp, hchild w ?_⟩
    · obtain rfl : y = w := Option.some.inj (hroot.symm.trans hw)
      simp
    · obtain ⟨c', l', r', rfl⟩ := root_eq_some_iff.mp hw
      simpa using hrA.2.1
    · rintro rfl
      exact hsucc (mem_of_root hw)
    · have hwy : w ≠ y := fun heq => hw' (heq ▸ hroot)
      simp [hwy]
    · rintro rfl
      exact hsucc hw
  refine successor_mended m₁ pa succ (front ++ [⟨.left, cr, y, r⟩]) s ?_
    (fun w hw => ?_) (by rw [hm₁]; rfl) h hright hsides hl ?_ ?_ ?_ (hr' ▸ hholds) hb hfuel
  · rw [rbErase_eq, Memory.rbEraseAugmented]
    simp only [hxl, hz, hxr, root_node, hyl, hloop, Option.bind_some, hsr, ← hpa, hm₁]
  · rw [hlist, List.mem_cons, not_or] at hw
    have hwy : w ≠ y := fun heq => hw.2 (heq ▸ hy)
    have hwp : w ≠ pa := fun heq => hw.2 (heq ▸ hpar)
    rw [hm₁]
    exact ⟨by simp [hwy], by simp, fun e => by simp [hw.1, hwp]⟩
  · rw [← hsplit]
    exact htop _
  · simp [hm₁, hsc]
  · rw [← hr', hroot]
    simp [hm₁]

theorem rbErase_spec (h : Represents m t) (hb : WellColored t .black n) (hx : x ∈ t.toList)
    (hfuel : t.toList.length ≤ fuel) : Erased m fuel x t := by
  obtain ⟨c, l, r, path, rfl⟩ := exists_plug hx
  have hlen : path.length ≤ fuel := by
    have hle := length_le_values path
    have hlength := (toList_plug_perm (.node c l x r) path).length_eq
    simp only [List.length_append] at hlength
    omega
  obtain ⟨c', k, hbx, hfits⟩ := exists_fits hb
  obtain rfl : c = c' := hbx.color_eq
  by_cases hl : l = .nil
  · subst hl
    refine erased_of_mended (rbErase_single (d := .left) h hbx hfits hlen) ?_
    rw [erase_plug h.nodup, toList_plug]
    simp
  · cases r with
    | nil =>
      refine erased_of_mended (rbErase_single (d := .right) h hbx hfits hlen) ?_
      rw [erase_plug h.nodup, toList_plug]
      simp
    | node cr s y r =>
      by_cases hs : s = .nil
      · subst hs
        exact rbErase_case2 h hl hb hfuel
      · exact rbErase_case3 h hl hs hb hfuel

theorem IsTree.erase {xs : List α} (h : IsTree m xs) (hx : x ∈ xs) (hfuel : xs.length ≤ fuel) :
    ∃ m', m.rbErase fuel x = some m' ∧ IsTree m' (xs.erase x) := by
  obtain ⟨t, n, hrep, hb, rfl⟩ := h
  obtain ⟨m', t', herase, hrep', hlist, j, hj⟩ := rbErase_spec hrep hb hx hfuel
  exact ⟨m', herase, t', j, hrep', hj, hlist⟩

theorem IsTree.replace {l₁ l₂ : List α} (h : IsTree m (l₁ ++ x :: l₂)) (hy : y ∉ l₁ ++ x :: l₂) :
    IsTree (m.rbReplaceNode x y) (l₁ ++ y :: l₂) := by
  obtain ⟨t, n, hrep, hb, hlist⟩ := h
  have hx : x ∈ t.toList := by simp [hlist]
  obtain ⟨c, l, r, path, rfl⟩ := exists_plug hx
  obtain ⟨c', k, hbx, hfits⟩ := exists_fits hb
  obtain ⟨j, hj⟩ := hbx.rename.plug hfits
  have hsplit : ∀ z, (plug (.node c l z r) path).toList =
      (before path ++ l.toList) ++ z :: (r.toList ++ after path) := by
    intro z
    rw [toList_plug, toList_node]
    simp
  obtain ⟨hleft, hright⟩ := eq_of_split (hsplit x ▸ hrep.nodup) ((hsplit x).symm.trans hlist)
  refine ⟨_, j, rbReplaceNode_represents hrep (hlist ▸ hy), hj, ?_⟩
  rw [hsplit, hleft, hright]

end Training.RbTree
