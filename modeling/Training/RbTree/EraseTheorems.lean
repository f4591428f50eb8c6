/-
Training.RbTree.EraseTheorems — `____rb_erase_color` balances the tree.

The ways through the hole have one black node too few. The loop goes up
through black siblings that have no red child (`eraseLoop_spec`, by
induction on the path to the root); it ends at the root, at a red parent,
or in rotations (`eraseRotateParent_holds`, behind
`eraseRotateNephew_holds` where only the near nephew is red). A red sibling
is first turned up (`eraseRotateSibling_holds`).
-/
import Training.RbTree.InsertTheorems

namespace Training.RbTree

open Training.Lib.RedBlack Training.Lib.RedBlack.ColorTree

universe u

variable {α : Type u} [DecidableEq α] {m m' : Memory α} {t s a b near far : ColorTree α}
  {pa sib neph z : α} {c : Color} {d : Side} {p p' : Option α} {path rest : Spine α} {k fuel : Nat}

/-! ## Rotations -/

/-- Case 4. -/
theorem eraseRotateParent_holds (hpt : m.child d pa = t.root) (ht : Holds m (some pa) t)
    (hsn : m.child d sib = near.root) (hnear : Holds m p near)
    (hsf : m.child d.other sib = far.root) (hfar : Holds m p' far) (hz : far.root = some z)
    (hpp : m.parent pa = top path) (hpc : m.color pa = c) (hpath : HoldsPath m (some pa) path)
    (hnodup : (plug (join d c sib (join d .black pa t near) far) path).toList.Nodup) :
    HoldsPath (m.eraseRotateParent d pa sib z) (some sib) path ∧
      Holds (m.eraseRotateParent d pa sib z) (top path)
        (join d c sib (join d .black pa t near) (recolor .black far)) := by
  simp only [nodup_plug, nodup_join, List.disjoint_left, mem_join, not_or, or_imp, forall_and,
    forall_eq] at hnodup
  have hroot : ∀ y, near.root = some y → y ∈ near.toList := fun y => mem_of_root
  have hzf : z ∈ far.toList := mem_of_root hz
  have hsp : sib ≠ pa := by grind
  have hzp : pa ≠ z := by grind
  have hzs : sib ≠ z := by grind
  have hnp : near.root ≠ some pa := by grind
  have hns : near.root ≠ some sib := by grind
  have hnz : near.root ≠ some z := by grind
  unfold Memory.eraseRotateParent
  rw [hsn]
  refine rotate_spec (hpath.congr (by simp) fun y hy => ?_) (by simp [hzp, hnp, hpp]) (by grind)
    (by grind) (by grind) ?_ ?_
  · have hyp : y ≠ pa := by grind
    have hys : y ≠ sib := by grind
    have hyz : y ≠ z := by grind
    have hyn : near.root ≠ some y := by grind
    exact ⟨by simp [hyz, hyn], by simp [hyz], fun e => by simp [hyp, hys]⟩
  · intro y hy
    simp only [mem_join, toList_recolor] at hy
    grind
  · generalize hm' : Memory.rbSetParentColor _ pa (some sib) .black = m'
    have hsame : ∀ y, y ≠ pa → y ≠ sib → y ≠ z → near.root ≠ some y → Same m m' y := by
      intro y hyp hys hyz hyn
      subst hm'
      exact ⟨by simp [hyp, hys, hyz, hyn], by simp [hyp, hys, hyz], fun e => by simp [hyp, hys]⟩
    have hsib : m'.parent sib = top path ∧ m'.color sib = c ∧ m'.child d sib = some pa ∧
        m'.child d.other sib = far.root := by
      subst hm'
      simp [hsp, hzp, hpc, hsf]
    have hpa : m'.parent pa = some sib ∧ m'.color pa = .black ∧ m'.child d pa = t.root ∧
        m'.child d.other pa = near.root := by
      subst hm'
      simp [hsp.symm, hpt]
    have hnear' : Holds m' (some pa) near := by
      rw [← recolor_of_color (t := near) rfl]
      refine hnear.reparent (by grind) (fun y hy => ?_) fun y hy hy' => hsame y ?_ ?_ ?_ hy'
      any_goals grind
      have hyp : y ≠ pa := by grind
      have hys : y ≠ sib := by grind
      have hyz : y ≠ z := by grind
      have hcolor : m.color y = near.color := by
        obtain ⟨c, l, r, rfl⟩ := root_eq_some_iff.mp hy
        exact hnear.2.1
      subst hm'
      exact ⟨by simp [hyp, hys, hy], by simp [hyp, hys, hyz, hcolor], fun e => by simp [hyp, hys]⟩
    have hfar' : Holds m' (some sib) (recolor .black far) := by
      refine hfar.reparent (by grind) (fun y hy => ?_) fun y hy hy' => hsame y ?_ ?_ ?_ ?_
      any_goals grind
      obtain rfl : z = y := Option.some.inj (hz.symm.trans hy)
      subst hm'
      exact ⟨by simp [hzp.symm, hzs.symm, hnz], by simp [hzp.symm, hzs.symm],
        fun e => by simp [hzp.symm, hzs.symm]⟩
    rw [holds_join, holds_join, root_recolor]
    refine ⟨hsib.1, hsib.2.1, by rw [hsib.2.2.1, root_join], hsib.2.2.2, ⟨hpa.1, hpa.2.1,
      hpa.2.2.1, hpa.2.2.2, ht.congr fun y hy => hsame y ?_ ?_ ?_ ?_, hnear'⟩, hfar'⟩
    all_goals grind

/-- Case 1. -/
theorem eraseRotateSibling_holds (hpt : m.child d pa = t.root) (ht : Holds m (some pa) t)
    (hsc : m.color sib = .red) (hsn : m.child d sib = near.root) (hnear : Holds m (some sib) near)
    (hblack : near.color = .black) (hsf : m.child d.other sib = far.root)
    (hfar : Holds m (some sib) far) (hz : near.root = some z) (hpp : m.parent pa = top path)
    (hpc : m.color pa = c) (hpath : HoldsPath m (some pa) path)
    (hnodup : (plug (join d c sib (join d .red pa t near) far) path).toList.Nodup) :
    ∃ m', m.eraseRotateSibling d pa sib = some (m', z) ∧ HoldsPath m' (some sib) path ∧
      Holds m' (top path) (join d c sib (join d .red pa t near) far) := by
  simp only [nodup_plug, nodup_join, List.disjoint_left, mem_join, not_or, or_imp, forall_and,
    forall_eq] at hnodup
  have hzn : z ∈ near.toList := mem_of_root hz
  have hsp : sib ≠ pa := by grind
  have hzp : pa ≠ z := by grind
  have hzs : sib ≠ z := by grind
  unfold Memory.eraseRotateSibling
  rw [if_pos hsc, hsn, hz]
  refine ⟨_, rfl, rotate_spec (hpath.congr (by simp) fun y hy => ?_) (by simp [hzp, hpp]) (by grind)
    (by grind) (by grind) ?_ ?_⟩
  · have hyp : y ≠ pa := by grind
    have hys : y ≠ sib := by grind
    have hyz : y ≠ z := by grind
    exact ⟨by simp [hyz], by simp [hyz], fun e => by simp [hyp, hys]⟩
  · intro y hy
    simp only [mem_join] at hy
    grind
  · generalize hm' : Memory.rbSetParentColor _ pa (some sib) .red = m'
    have hsame : ∀ y, y ≠ pa → y ≠ sib → y ≠ z → Same m m' y := by
      intro y hyp hys hyz
      subst hm'
      exact ⟨by simp [hyp, hys, hyz], by simp [hyp, hys, hyz], fun e => by simp [hyp, hys]⟩
    have hsib : m'.parent sib = top path ∧ m'.color sib = c ∧ m'.child d sib = some pa ∧
        m'.child d.other sib = far.root := by
      subst hm'
      simp [hsp, hzp, hpc, hsf]
    have hpa : m'.parent pa = some sib ∧ m'.color pa = .red ∧ m'.child d pa = t.root ∧
        m'.child d.other pa = near.root := by
      subst hm'
      simp [hsp.symm, hpt, hz]
    have hnear' : Holds m' (some pa) near := by
      rw [← recolor_of_color hblack]
      refine hnear.reparent (by grind) (fun y hy => ?_) fun y hy hy' => hsame y ?_ ?_ ?_
      any_goals grind
      obtain rfl : z = y := Option.some.inj (hz.symm.trans hy)
      subst hm'
      exact ⟨by simp [hzp.symm, hzs.symm], by simp [hzp.symm, hzs.symm],
        fun e => by simp [hzp.symm, hzs.symm]⟩
    rw [holds_join, holds_join]
    refine ⟨hsib.1, hsib.2.1, by rw [hsib.2.2.1, root_join], hsib.2.2.2, ⟨hpa.1, hpa.2.1,
      hpa.2.2.1, hpa.2.2.2, ht.congr fun y hy => hsame y ?_ ?_ ?_, hnear'⟩,
      hfar.congr fun y hy => hsame y ?_ ?_ ?_⟩
    all_goals grind

/-- Cases 3 and 4. -/
theorem eraseRotateNephew_holds (hpt : m.child d pa = t.root) (ht : Holds m (some pa) t)
    (hsib : Holds m (some pa) (join d .black sib (join d .red neph a b) far))
    (hb : b.color = .black) (hpp : m.parent pa = top path) (hpc : m.color pa = c)
    (hpath : HoldsPath m (some pa) path)
    (hnodup : (plug (join d c neph (join d .black pa t a) (join d .black sib b far))
      path).toList.Nodup) :
    let m₁ := m.eraseRotateNephew d pa sib neph
    HoldsPath (m₁.eraseRotateParent d pa neph sib) (some neph) path ∧
      Holds (m₁.eraseRotateParent d pa neph sib) (top path)
        (join d c neph (join d .black pa t a) (join d .black sib b far)) := by
  intro m₁
  have hnodup' := hnodup
  simp only [nodup_plug, nodup_join, List.disjoint_left, mem_join, not_or, or_imp, forall_and,
    forall_eq] at hnodup'
  obtain ⟨hsp, hsc, hsn, hsf, hneph, hfar⟩ := holds_join.mp hsib
  obtain ⟨hnp, hnc, hna, hnb, ha, hb'⟩ := holds_join.mp hneph
  have hroot : ∀ y, b.root = some y → y ∈ b.toList := fun y => mem_of_root
  have hm₁ : m₁ = (((m.setChild d sib b.root).setChild d.other neph (some sib)).setChild d.other pa
      (some neph)).setParentColorIf b.root (some sib) .black := by
    simp only [m₁, Memory.eraseRotateNephew, hnb]
  have hsne : sib ≠ neph := by grind
  have hspa : sib ≠ pa := by grind
  have hnpa : neph ≠ pa := by grind
  have hsame : ∀ y, y ≠ pa → y ≠ sib → y ≠ neph → b.root ≠ some y → Same m m₁ y := by
    intro y hyp hys hyn hyb
    rw [hm₁]
    exact ⟨by simp [hyb], by simp [hyb], fun e => by simp [hyp, hys, hyn]⟩
  have hbp : b.root ≠ some pa := by grind
  have hbs : b.root ≠ some sib := by grind
  have hpa : m₁.parent pa = top path ∧ m₁.color pa = c ∧ m₁.child d pa = t.root := by
    rw [hm₁]
    simp [hbp, hpp, hpc, hspa.symm, hpt]
  have hneph' : m₁.child d neph = a.root ∧ m₁.child d.other neph = some sib := by
    rw [hm₁]
    simp [hsne.symm, hnpa, hna]
  have hsib' : Holds m₁ (some pa) (join d .black sib b far) := by
    have hb₁ : Holds m₁ (some sib) b := by
      rw [← recolor_of_color hb]
      refine hb'.reparent (by grind) (fun y hy => ?_) fun y hy hy' => hsame y ?_ ?_ ?_ hy'
      any_goals grind
      have hyp : y ≠ pa := by grind
      have hys : y ≠ sib := by grind
      have hyn : y ≠ neph := by grind
      rw [hm₁]
      exact ⟨by simp [hy], by simp [hy], fun e => by simp [hyp, hys, hyn]⟩
    refine holds_join.mpr ⟨?_, ?_, ?_, ?_, hb₁, hfar.congr fun y hy => hsame y ?_ ?_ ?_ ?_⟩
    any_goals grind
    · rw [hm₁]
      simp [hbs, hsp]
    · rw [hm₁]
      simp [hbs, hsc]
    · rw [hm₁]
      simp
    · rw [hm₁]
      simp [hsne, hspa, hsf]
  rw [← recolor_of_color (t := join d .black sib b far) color_join]
  refine eraseRotateParent_holds hpa.2.2 (ht.congr fun y hy => hsame y ?_ ?_ ?_ ?_) hneph'.1
    (ha.congr fun y hy => hsame y ?_ ?_ ?_ ?_) (hneph'.2.trans root_join.symm) hsib' root_join
    hpa.1 hpa.2.1 (hpath.congr (by simp [hm₁]) fun y hy => hsame y ?_ ?_ ?_ ?_) hnodup
  all_goals grind

/-! ## The loop -/

/-- What is to come of a hole that is one black node short. -/
def Mended (r : Option (Memory α)) (t : ColorTree α) (path : Spine α) : Prop :=
  ∃ m' t', r = some m' ∧ Represents m' t' ∧ t'.toList = (plug t path).toList ∧
    ∃ j, WellColored t' .black j

omit [DecidableEq α] in
theorem mended_of_holds (hpath : HoldsPath m t.root path) (ht : Holds m (top path) t)
    (hlist : (plug t path).toList = (plug s rest).toList) (hnodup : (plug s rest).toList.Nodup)
    (hb : WellColored t c k) (hfits : Fits path c k) : Mended (some m) s rest :=
  ⟨m, plug t path, rfl, represents_plug.mpr ⟨hpath, ht, hlist ▸ hnodup⟩, hlist, hb.plug hfits⟩

/-- The part of a turn behind case 1, as a function of the sibling. -/
def settle (m : Memory α) (fuel : Nat) (d : Side) (pa sib : α) : Option (Memory α) :=
  let tmp1 := m.child d.other sib
  if m.isRed tmp1 then tmp1.bind fun tmp1 => some (m.eraseRotateParent d pa sib tmp1)
  else
    let tmp2 := m.child d sib
    if m.isRed tmp2 then
      tmp2.bind fun tmp2 =>
        let m := m.eraseRotateNephew d pa sib tmp2
        some (m.eraseRotateParent d pa tmp2 sib)
    else
      let m := m.rbSetParentColor sib (some pa) .red
      if m.color pa = .red then some (m.rbSetBlack pa)
      else
        match m.parent pa with
        | some grand => Memory.eraseLoop fuel m (some pa) grand
        | none => some m

/-- A colour flip of the sibling. -/
theorem flipSibling_holds
    (hpath : HoldsPath m t.root (⟨d, c, pa, join d .black sib near far⟩ :: path))
    (ht : Holds m (some pa) t)
    (hnodup : (plug t (⟨d, c, pa, join d .black sib near far⟩ :: path)).toList.Nodup) :
    let m₁ := m.rbSetParentColor sib (some pa) .red
    HoldsPath m₁ (some pa) path ∧
      Holds m₁ (top path) (join d c pa t (join d .red sib near far)) := by
  intro m₁
  simp only [plug_cons, nodup_plug, nodup_join, List.disjoint_left, mem_join, not_or, or_imp,
    forall_and, forall_eq] at hnodup
  obtain ⟨hpp, hpc, hpt, hps, hsib, hrest⟩ := hpath
  obtain ⟨-, -, hsn, hsf, hnear, hfar⟩ := holds_join.mp hsib
  have hsp : pa ≠ sib := by grind
  have hsame : ∀ y, y ≠ sib → Same m m₁ y := fun y hy =>
    ⟨by simp [m₁, hy], by simp [m₁, hy], fun e => rfl⟩
  refine ⟨hrest.congr rfl fun y hy => hsame y (by grind), holds_join.mpr ⟨?_, ?_, hpt, ?_,
    ht.congr fun y hy => hsame y (by grind), holds_join.mpr ⟨by simp [m₁], by simp [m₁], hsn, hsf,
      hnear.congr fun y hy => hsame y (by grind), hfar.congr fun y hy => hsame y (by grind)⟩⟩⟩
  · exact (hsame pa hsp).parent.trans hpp
  · exact (hsame pa hsp).color.trans hpc
  · exact hps.trans (by simp)

theorem rbSetBlack_holds (hpath : HoldsPath m (some pa) path) (ht : Holds m (top path) t)
    (hroot : t.root = some pa) (hnodup : (plug t path).toList.Nodup) :
    HoldsPath (m.rbSetBlack pa) (some pa) path ∧
      Holds (m.rbSetBlack pa) (top path) (recolor .black t) := by
  obtain ⟨hnt, -, hdisj⟩ := nodup_plug.mp hnodup
  have hparent : m.parent pa = top path := by
    obtain ⟨c, l, r, rfl⟩ := root_eq_some_iff.mp hroot
    exact ht.1
  have hsame : ∀ y, y ≠ pa → Same m (m.rbSetBlack pa) y := fun y hy =>
    ⟨by simp [Memory.rbSetBlack, hy], by simp [Memory.rbSetBlack, hy], fun e => rfl⟩
  refine ⟨hpath.congr rfl fun y hy => hsame y ?_, ht.reparent hnt (fun y hy => ?_)
    fun y _ hy => hsame y ?_⟩
  · rintro rfl
    exact hdisj (mem_of_root hroot) hy
  · obtain rfl : pa = y := Option.some.inj (hroot.symm.trans hy)
    simp [Memory.rbSetBlack, hparent]
  · rintro rfl
    exact hy hroot

theorem settle_spec
    (ih : c = .black → ∀ (m : Memory α) (t : ColorTree α) (grand : α), top path = some grand →
      WellColored t .black (k + 1) → HoldsPath m t.root path → Holds m (top path) t →
      (plug t path).toList.Nodup → Mended (m.eraseLoop fuel t.root grand) t path)
    (hpath : HoldsPath m t.root (⟨d, c, pa, join d .black sib near far⟩ :: path))
    (ht : Holds m (some pa) t)
    (hnodup : (plug t (⟨d, c, pa, join d .black sib near far⟩ :: path)).toList.Nodup)
    (hbt : WellColored t .black k) (hnear : WellColored near near.color k)
    (hfar : WellColored far far.color k)
    (hfits : Fits path c (c.tally (k + 1))) :
    Mended (settle m fuel d pa sib) t (⟨d, c, pa, join d .black sib near far⟩ :: path) := by
  have hpath' := hpath
  obtain ⟨hpp, hpc, hpt, hps, hsib, hrest⟩ := hpath'
  simp only [root_join] at hpp hpc hpt hps hsib hrest
  obtain ⟨-, -, hsn, hsf, hnholds, hfholds⟩ := holds_join.mp hsib
  have hblack : ∀ {u : ColorTree α}, u.color ≠ .red → u.color = .black := by
    intro u hu
    cases hc : u.color with
    | red => exact absurd hc hu
    | black => rfl
  unfold settle
  simp only [hsn, hsf]
  by_cases hfred : far.color = .red
  · obtain ⟨z, hz⟩ : ∃ z, far.root = some z := by
      cases far with
      | nil => cases hfred
      | node c l z r => exact ⟨z, rfl⟩
    rw [if_pos ((isRed_root hfholds).mpr hfred), hz, Option.bind_some]
    have hlist : (plug (join d c sib (join d .black pa t near) far) path).toList =
        (plug t (⟨d, c, pa, join d .black sib near far⟩ :: path)).toList := by
      rw [plug_cons, toList_plug, toList_plug]
      cases d <;> simp
    obtain ⟨hpath', hholds⟩ := eraseRotateParent_holds hpt ht hsn hnholds hsf hfholds hz hpp hpc
      hrest (hlist ▸ hnodup)
    rw [hfred] at hfar
    have hb : WellColored (join d .black pa t near) .black (k + 1) :=
      wellColored_black_iff.mpr ⟨rfl, k, rfl, hbt.self, hnear⟩
    refine mended_of_holds (by rwa [root_join]) hholds ?_ hnodup (hb.join hfar.blacken) hfits
    rw [← hlist, toList_plug, toList_plug]
    cases d <;> simp
  · rw [if_neg fun h => hfred ((isRed_root hfholds).mp h)]
    by_cases hnred : near.color = .red
    · obtain ⟨neph, hneph⟩ : ∃ z, near.root = some z := by
        cases near with
        | nil => cases hnred
        | node c l z r => exact ⟨z, rfl⟩
      rw [if_pos ((isRed_root hnholds).mpr hnred), hneph, Option.bind_some]
      obtain ⟨a, b, hjoin⟩ := exists_join d hneph
      rw [hnred] at hjoin
      subst hjoin
      obtain ⟨-, ha, hb⟩ := wellColored_red_iff.mp hnear
      have hlist : (plug (join d c neph (join d .black pa t a) (join d .black sib b far))
          path).toList = (plug t (⟨d, c, pa, join d .black sib (join d .red neph a b) far⟩ ::
            path)).toList := by
        rw [plug_cons, toList_plug, toList_plug]
        cases d <;> simp
      obtain ⟨hpath', hholds⟩ := eraseRotateNephew_holds hpt ht hsib hb.color_eq hpp hpc hrest
        (hlist ▸ hnodup)
      have hb₁ : WellColored (join d .black pa t a) .black (k + 1) :=
        wellColored_black_iff.mpr ⟨rfl, k, rfl, hbt.self, ha.self⟩
      have hb₂ : WellColored (join d .black sib b far) .black (k + 1) :=
        wellColored_black_iff.mpr ⟨rfl, k, rfl, hb.self, hfar⟩
      exact mended_of_holds (by rwa [root_join]) hholds hlist hnodup (hb₁.join hb₂) hfits
    · rw [if_neg fun h => hnred ((isRed_root hnholds).mp h)]
      rw [hblack hnred] at hnear
      rw [hblack hfred] at hfar
      have hlist : (plug (join d c pa t (join d .red sib near far)) path).toList =
          (plug t (⟨d, c, pa, join d .black sib near far⟩ :: path)).toList := by
        rw [plug_cons, toList_plug, toList_plug]
        cases d <;> simp
      have hred : WellColored (join d .red sib near far) .red k :=
        wellColored_red_iff.mpr ⟨rfl, hnear, hfar⟩
      have hb : WellColored (join d .black pa t (join d .red sib near far)) .black (k + 1) :=
        wellColored_black_iff.mpr ⟨rfl, k, rfl, hbt.self, hred.self⟩
      obtain ⟨hpath', hholds⟩ := flipSibling_holds hpath ht hnodup
      have hcolor := (holds_join.mp hholds).2.1
      have hparent := (holds_join.mp hholds).1
      simp only [hcolor, hparent]
      cases c with
      | red =>
        rw [if_pos rfl]
        obtain ⟨hpath₂, hholds₂⟩ := rbSetBlack_holds hpath' hholds root_join (hlist ▸ hnodup)
        rw [recolor_join] at hholds₂
        refine mended_of_holds (by rwa [root_join]) hholds₂ ?_ hnodup hb hfits.toBlack
        rw [← hlist, toList_plug, toList_plug]
        cases d <;> simp
      | black =>
        rw [if_neg (by simp)]
        cases htop : top path with
        | none =>
          obtain rfl : path = [] := by
            cases path with
            | nil => rfl
            | cons f path => simp at htop
          exact mended_of_holds (by rwa [root_join]) hholds hlist hnodup hb .root
        | some grand =>
          obtain ⟨m', t', hloop, hrep, hlist', hj⟩ := ih rfl _ _ grand htop hb
            (by rwa [root_join]) hholds (hlist ▸ hnodup)
          rw [root_join] at hloop
          exact ⟨m', t', hloop, hrep, hlist'.trans hlist, hj⟩

/-- The side of the hole, as the code finds it. -/
theorem hole_side_eq (hnear : m.child d pa = t.root) (hfar : m.child d.other pa = s.root)
    (hs : s ≠ .nil) (hdisj : t.toList.Disjoint s.toList) :
    (if t.root ≠ m.child .right pa then Side.left else Side.right) = d := by
  cases d with
  | left =>
    rw [if_pos]
    intro heq
    obtain ⟨y, hy⟩ : ∃ y, s.root = some y := by
      cases s with
      | nil => exact absurd rfl hs
      | node c l y r => exact ⟨y, rfl⟩
    exact hdisj (mem_of_root (heq.trans (hfar.trans hy))) (mem_of_root hy)
  | right => simp [hnear]

/-- A red sibling is turned up, and the parent is red for the rest of the turn. -/
theorem settle_rotated
    (hpath : HoldsPath m t.root (⟨d, .black, pa, join d .red sib near far⟩ :: path))
    (ht : Holds m (some pa) t)
    (hnodup : (plug t (⟨d, .black, pa, join d .red sib near far⟩ :: path)).toList.Nodup)
    (hb : WellColored t .black k) (hnear : WellColored near .black (k + 1))
    (hfar : WellColored far .black (k + 1)) (hfits : Fits path .black (k + 2)) :
    Mended ((m.eraseRotateSibling d pa sib).bind fun (m, sib) => settle m fuel d pa sib) t
      (⟨d, .black, pa, join d .red sib near far⟩ :: path) := by
  obtain ⟨z, near₁, far₁, rfl, hnear₁, hfar₁⟩ := hnear.exists_join d
  obtain ⟨hpp, hpc, hpt, hps, hsib, hrest⟩ := hpath
  obtain ⟨hsp, hsc, hsn, hsf, hnholds, hfholds⟩ := holds_join.mp hsib
  have hlist : (plug t (⟨d, .red, pa, join d .black z near₁ far₁⟩ :: ⟨d, .black, sib, far⟩ ::
      path)).toList = (plug t (⟨d, .black, pa, join d .red sib (join d .black z near₁ far₁)
        far⟩ :: path)).toList := by
    rw [plug_cons, plug_cons, plug_cons, toList_plug, toList_plug]
    cases d <;> simp
  rw [← hlist] at hnodup
  obtain ⟨m', hrotate, hpath', hholds⟩ := eraseRotateSibling_holds hpt ht hsc hsn hnholds color_join
    hsf hfholds root_join hpp hpc hrest hnodup
  rw [hrotate, Option.bind_some]
  -- the two lowest frames of the new tree
  obtain ⟨hpath₁, hholds₁⟩ := (holds_frame (f := ⟨d, .black, sib, far⟩)).mpr ⟨hpath', hholds⟩
  rw [root_join] at hpath₁
  obtain ⟨hpath₂, hholds₂⟩ := (holds_frame (f := ⟨d, .red, pa, join d .black z near₁ far₁⟩)).mpr
    ⟨hpath₁, hholds₁⟩
  obtain ⟨m₂, t₂, hloop, hrep, hlist₂, hj⟩ := settle_spec (fun h => by cases h)
    hpath₂ hholds₂ hnodup hb hnear₁ hfar₁ (.black rfl hfar hfits)
  exact ⟨m₂, t₂, hloop, hrep, hlist₂.trans hlist, hj⟩

theorem eraseLoop_spec (hb : WellColored t .black k) (hfits : Fits path .black (k + 1))
    (htop : top path = some pa) (hpath : HoldsPath m t.root path) (ht : Holds m (top path) t)
    (hnodup : (plug t path).toList.Nodup) (hfuel : path.length ≤ fuel) :
    Mended (m.eraseLoop fuel t.root pa) t path := by
  induction fuel generalizing m t path pa k with
  | zero =>
    obtain rfl := List.eq_nil_of_length_eq_zero (Nat.le_zero.mp hfuel)
    cases htop
  | succ fuel ih =>
    obtain - | ⟨⟨d, c, pa', s⟩, path⟩ := path
    · cases htop
    obtain rfl : pa' = pa := Option.some.inj htop
    have hnodup' := hnodup
    simp only [plug_cons, nodup_plug, nodup_join] at hnodup'
    have hpath' := hpath
    obtain ⟨hpp, hpc, hpt, hps, hsib, hrest⟩ := hpath'
    simp only at hpp hpc hpt hps hsib hrest
    have hfuel' : path.length ≤ fuel := by
      simp only [List.length_cons] at hfuel
      omega
    obtain ⟨hs, hfits'⟩ : WellColored s s.color (k + 1) ∧ Fits path c (c.tally (k + 1)) := by
      cases hfits with
      | red hc hs hrest =>
        obtain rfl : c = .red := hc
        exact ⟨hs.self, hrest⟩
      | black hc hs hrest =>
        obtain rfl : c = .black := hc
        exact ⟨hs.self, hrest⟩
    have hsnil : s ≠ .nil := by
      rintro rfl
      cases hs
    have hside := hole_side_eq hpt hps hsnil hnodup'.1.2.2.2
    rw [Memory.eraseLoop]
    simp only [hside, hps]
    cases hsc : s.color with
    | black =>
      rw [hsc] at hs
      obtain ⟨sib, near, far, rfl, hnear, hfar⟩ := hs.exists_join d
      have hsibc := (holds_join.mp hsib).2.1
      rw [root_join, Option.bind_some, Memory.eraseRotateSibling, if_neg (by simp [hsibc]),
        Option.bind_some]
      refine settle_spec (fun hc m' t' grand htop' hb' hpath₁ ht' hnodup₁ => ?_) hpath ht
        hnodup hb hnear hfar hfits'
      subst hc
      exact ih hb' hfits' htop' hpath₁ ht' hnodup₁ hfuel'
    | red =>
      rw [hsc] at hs
      obtain rfl : c = .black := by
        cases hfits with
        | red hc hs' _ => exact absurd (hs'.color_eq.symm.trans hsc) (by simp)
        | black hc _ _ => exact hc
      obtain ⟨sib, hroot⟩ : ∃ z, s.root = some z := by
        cases s with
        | nil => exact absurd rfl hsnil
        | node c l z r => exact ⟨z, rfl⟩
      obtain ⟨near, far, hjoin⟩ := exists_join d hroot
      rw [hsc] at hjoin
      subst hjoin
      obtain ⟨-, hnear, hfar⟩ := wellColored_red_iff.mp hs
      rw [root_join, Option.bind_some]
      exact settle_rotated hpath ht hnodup hb hnear hfar hfits'

end Training.RbTree
