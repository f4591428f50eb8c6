/-
Training.RbTree.InsertTheorems — `rb_insert_color` balances the tree.

A red node has been linked in. The loop goes up through red parents with
red uncles (`insertLoop_spec`, by induction on the path to the root); it
ends at the root, at a black parent, or in a rotation
(`insertRotate_holds`). The order of the nodes stays as it was.
-/
import Training.RbTree.HoldsTheorems

namespace Training.RbTree

open Training.Lib.RedBlack Training.Lib.RedBlack.ColorTree

universe u

variable {α : Type u} [DecidableEq α] {m m' : Memory α} {t a b s u : ColorTree α}
  {x y n g pa old new : α} {c : Color} {d e : Side} {p q : Option α}
  {path rest : Spine α} {f : Frame α} {k fuel : Nat}

/-! ## Rotations -/

/-- What `__rb_rotate_set_parents` leaves to be done for a rotation. -/
theorem rotate_spec (h : HoldsPath m (some old) path) (hparent : m.parent old = top path)
    (hold : old ∉ values path) (hnew : new ∉ values path) (hnodup : (values path).Nodup)
    (ht : t.toList.Disjoint (values path))
    (hholds : Holds ((m.rbSetParentColor new (top path) (m.color old)).rbSetParentColor old
      (some new) c) (top path) t) :
    HoldsPath (m.rbRotateSetParents old new c) (some new) path ∧
      Holds (m.rbRotateSetParents old new c) (top path) t := by
  have hpath : HoldsPath ((m.rbSetParentColor new (top path) (m.color old)).rbSetParentColor old
      (some new) c) (some old) path := by
    refine h.congr rfl fun y hy => ⟨?_, ?_, fun e => rfl⟩
    · have hyo : y ≠ old := fun heq => hold (heq ▸ hy)
      have hyn : y ≠ new := fun heq => hnew (heq ▸ hy)
      simp [hyo, hyn]
    · have hyo : y ≠ old := fun heq => hold (heq ▸ hy)
      have hyn : y ≠ new := fun heq => hnew (heq ▸ hy)
      simp [hyo, hyn]
  have heq : m.rbRotateSetParents old new c =
      ((m.rbSetParentColor new (top path) (m.color old)).rbSetParentColor old
        (some new) c).store (some new) (linkOf path) := by
    unfold Memory.rbRotateSetParents
    rw [hparent]
    exact hpath.changeChild hold
  rw [heq]
  exact ⟨hpath.store hnodup, hholds.congr fun y hy => same_store (ht hy)⟩

theorem insertRotateGparent_holds (hna : m.child d n = a.root) (ha : Holds m (some n) a)
    (hb : Holds m q b) (hblack : b.color = .black) (hgu : m.child d.other g = u.root)
    (hu : Holds m (some g) u) (hgp : m.parent g = top path) (hg : m.color g = .black)
    (hpath : HoldsPath m (some g) path)
    (hnodup : (plug (join d .black n a (join d .red g b u)) path).toList.Nodup) :
    HoldsPath (m.insertRotateGparent d n g b.root) (some n) path ∧
      Holds (m.insertRotateGparent d n g b.root) (top path)
        (join d .black n a (join d .red g b u)) := by
  simp only [nodup_plug, nodup_join, List.disjoint_left, mem_join, not_or, or_imp, forall_and,
    forall_eq] at hnodup
  have hroot : ∀ y, b.root = some y → y ∈ b.toList := fun y => mem_of_root
  have hbg : b.root ≠ some g := by grind
  have hbn : b.root ≠ some n := by grind
  have hng : n ≠ g := by grind
  unfold Memory.insertRotateGparent
  refine rotate_spec (hpath.congr (by simp) fun y hy => ?_) (by simp [hbg, hgp]) (by grind)
    (by grind) (by grind) ?_ ?_
  · have hyg : y ≠ g := by grind
    have hyn : y ≠ n := by grind
    have hyb : b.root ≠ some y := by grind
    exact ⟨by simp [hyb], by simp [hyb], fun e => by simp [hyg, hyn]⟩
  · intro y hy
    simp only [mem_join] at hy
    grind
  · generalize hm' : Memory.rbSetParentColor _ g (some n) .red = m'
    have hsame : ∀ y, y ≠ g → y ≠ n → b.root ≠ some y → Same m m' y := by
      intro y hyg hyn hyb
      subst hm'
      exact ⟨by simp [hyg, hyn, hyb], by simp [hyg, hyn, hyb], fun e => by simp [hyg, hyn]⟩
    rw [holds_join, holds_join]
    refine ⟨?_, ?_, ?_, ?_, ha.congr fun y hy => hsame y ?_ ?_ ?_, ?_, ?_, ?_, ?_, ?_,
      hu.congr fun y hy => hsame y ?_ ?_ ?_⟩
    any_goals grind
    · subst hm'
      simp [hng]
    · subst hm'
      simp [hng, hbg, hg]
    · subst hm'
      simp [hng, hna]
    · subst hm'
      simp
    · subst hm'
      simp
    · subst hm'
      simp
    · subst hm'
      simp
    · subst hm'
      simp [hng.symm, hgu]
    · rw [← recolor_of_color hblack]
      refine hb.reparent (by grind) (fun y hy => ?_) fun y hy hy' => hsame y ?_ ?_ hy'
      any_goals grind
      have hyg : y ≠ g := by grind
      have hyn : y ≠ n := by grind
      subst hm'
      exact ⟨by simp [hyg, hyn, hy], by simp [hyg, hyn, hy], fun e => by simp [hyg, hyn]⟩

/-- Case 2 turns the parent, and case 3 the grandparent. -/
theorem insertRotate_inner_holds (hpn : m.child d.other pa = some n)
    (hn : Holds m (some pa) (join d .red n a b)) (hps : m.child d pa = s.root)
    (hs : Holds m (some pa) s) (ha : a.color = .black) (hb : b.color = .black)
    (hgu : m.child d.other g = u.root) (hu : Holds m (some g) u) (hgp : m.parent g = top path)
    (hg : m.color g = .black) (hpath : HoldsPath m (some g) path)
    (hnodup : (plug (join d .black n (join d .red pa s a) (join d .red g b u)) path).toList.Nodup) :
    HoldsPath (m.insertRotate d n pa g) (some n) path ∧
      Holds (m.insertRotate d n pa g) (top path)
        (join d .black n (join d .red pa s a) (join d .red g b u)) := by
  have hnodup' := hnodup
  simp only [nodup_plug, nodup_join, List.disjoint_left, mem_join, not_or, or_imp, forall_and,
    forall_eq] at hnodup'
  have hroot : ∀ y, a.root = some y → y ∈ a.toList := fun y => mem_of_root
  obtain ⟨-, -, hna, hnb, hata, hatb⟩ := holds_join.mp hn
  have hpan : pa ≠ n := by grind
  obtain ⟨m', hm'⟩ : ∃ m', m' = (((m.setChild d.other pa a.root).setChild d n
      (some pa)).setParentColorIf a.root (some pa) .black).rbSetParentColor pa (some n) .red :=
    ⟨_, rfl⟩
  have hsame : ∀ y, y ≠ pa → y ≠ n → a.root ≠ some y → Same m m' y := by
    intro y hyp hyn hya
    subst hm'
    exact ⟨by simp [hyp, hya], by simp [hyp, hya], fun e => by simp [hyp, hyn]⟩
  have hpa : m'.parent pa = some n ∧ m'.color pa = .red ∧ m'.child d pa = s.root ∧
      m'.child d.other pa = a.root := by
    subst hm'
    simp [hpan, hps]
  have hnb' : m'.child d n = some pa ∧ m'.child d.other n = b.root := by
    subst hm'
    simp [hpan.symm, hnb]
  have ha' : Holds m' (some pa) a := by
    rw [← recolor_of_color ha]
    refine hata.reparent (by grind) (fun y hy => ?_) fun y hy hy' => hsame y ?_ ?_ hy'
    any_goals grind
    have hyp : y ≠ pa := by grind
    have hyn : y ≠ n := by grind
    subst hm'
    exact ⟨by simp [hyp, hy], by simp [hyp, hy], fun e => by simp [hyp, hyn]⟩
  have hrotate : m.insertRotate d n pa g = m'.insertRotateGparent d n g b.root := by
    unfold Memory.insertRotate
    simp only [hpn, if_true, hna, ← hm', hnb'.2]
  rw [hrotate]
  refine insertRotateGparent_holds (by rw [root_join]; exact hnb'.1)
    (holds_join.mpr ⟨hpa.1, hpa.2.1, hpa.2.2.1, hpa.2.2.2,
      hs.congr fun y hy => hsame y ?_ ?_ ?_, ha'⟩)
    (hatb.congr fun y hy => hsame y ?_ ?_ ?_) hb ?_ (hu.congr fun y hy => hsame y ?_ ?_ ?_) ?_ ?_
    (hpath.congr ?_ fun y hy => hsame y ?_ ?_ ?_) hnodup
  any_goals grind
  · exact ((hsame g (by grind) (by grind) (by grind)).child _).trans hgu
  · exact (hsame g (by grind) (by grind) (by grind)).parent.trans hgp
  · exact (hsame g (by grind) (by grind) (by grind)).color.trans hg
  · subst hm'
    simp

/-! ## The loop -/

omit [DecidableEq α] in
theorem isRed_root (h : Holds m p t) : m.isRed t.root = true ↔ t.color = .red := by
  cases t with
  | nil => simp [Memory.isRed]
  | node c l x r => simp [Memory.isRed, h.2.1]

/-- Case 1 moves the red up by two nodes. -/
theorem insertFlip_holds
    (hpath : HoldsPath m t.root (⟨e, .red, pa, s⟩ :: ⟨d, .black, g, u⟩ :: path))
    (ht : Holds m (some pa) t)
    (hnodup : (plug t (⟨e, .red, pa, s⟩ :: ⟨d, .black, g, u⟩ :: path)).toList.Nodup) :
    let m₁ := (m.setParentColorIf u.root (some g) .black).rbSetParentColor pa (some g) .black
    m₁.parent g = top path ∧
      HoldsPath (m₁.rbSetParentColor g (top path) .red) (some g) path ∧
      Holds (m₁.rbSetParentColor g (top path) .red) (top path)
        (join d .red g (join e .black pa t s) (recolor .black u)) := by
  simp only [plug_cons, nodup_plug, nodup_join, List.disjoint_left, mem_join, not_or, or_imp,
    forall_and, forall_eq] at hnodup
  have hroot : ∀ y, u.root = some y → y ∈ u.toList := fun y => mem_of_root
  obtain ⟨hpp, hpc, hpt, hps, hs, hgp, hgc, hgpa, hgu, hu, hrest⟩ := hpath
  simp only at hpp hpc hpt hps hs hgp hgc hgpa hgu hu
  have hpag : pa ≠ g := by grind
  have hug : u.root ≠ some g := by grind
  have hup : u.root ≠ some pa := by grind
  intro m₁
  generalize hm' : m₁.rbSetParentColor g (top path) .red = m'
  have hsame : ∀ y, y ≠ pa → y ≠ g → u.root ≠ some y → Same m m' y := by
    intro y hyp hyg hyu
    subst hm'
    exact ⟨by simp [m₁, hyp, hyg, hyu], by simp [m₁, hyp, hyg, hyu], fun e => by simp [m₁]⟩
  have hpa' : m'.parent pa = some g ∧ m'.color pa = .black ∧ m'.child = m.child := by
    subst hm'
    simp [m₁, hpag]
  have hg' : m'.parent g = top path ∧ m'.color g = .red := by
    subst hm'
    simp
  have hu' : Holds m' (some g) (recolor .black u) := by
    refine hu.reparent (by grind) (fun y hy => ?_) fun y hy hy' => hsame y ?_ ?_ hy'
    any_goals grind
    have hyp : y ≠ pa := by grind
    have hyg : y ≠ g := by grind
    subst hm'
    exact ⟨by simp [m₁, hyp, hyg, hy], by simp [m₁, hyp, hyg, hy], fun e => by simp [m₁]⟩
  refine ⟨by simp [m₁, hpag.symm, hug, hgp], hrest.congr (by simp [← hm', m₁])
    fun y hy => hsame y ?_ ?_ ?_, ?_⟩
  any_goals grind
  rw [holds_join, holds_join, hpa'.2.2]
  refine ⟨hg'.1, hg'.2, by simpa using hgpa, by simpa using hgu, ⟨hpa'.1, hpa'.2.1, hpt, hps,
    ht.congr fun y hy => hsame y ?_ ?_ ?_, hs.congr fun y hy => hsame y ?_ ?_ ?_⟩, hu'⟩
  all_goals grind

/-- The side of the parent, as the code finds it. -/
theorem side_eq (hnear : m.child d g = some pa) (hfar : m.child d.other g = u.root)
    (hu : pa ∉ u.toList) :
    (if m.child .right g ≠ some pa then Side.left else Side.right) = d := by
  cases d with
  | left =>
    rw [if_pos]
    intro heq
    exact hu (mem_of_root (hfar.symm.trans heq))
  | right => simp [hnear]

/-- What the loop comes to from a red node. -/
def Balances (m : Memory α) (fuel : Nat) (n : α) (t : ColorTree α) (path : Spine α) : Prop :=
  ∃ m' t', m.insertLoop fuel n (top path) = some m' ∧ Represents m' t' ∧
    t'.toList = (plug t path).toList ∧ ∃ j, WellColored t' .black j

/-- A turn of the loop at a red parent. -/
theorem balances_of_red
    (ih : ∀ {m : Memory α} {n : α} {t : ColorTree α} {path : Spine α} {k : Nat}, t.root = some n →
      WellColored t .red k → Fits path .black k → HoldsPath m (some n) path → Holds m (top path) t →
      (plug t path).toList.Nodup → path.length < fuel → Balances m fuel n t path)
    (ht : t.root = some n) (hb : WellColored t .red k) (hs : WellColored s .black k)
    (hu : WellColored u u.color k) (hfits : Fits path .black (k + 1))
    (hpath : HoldsPath m (some n) (⟨e, .red, pa, s⟩ :: ⟨d, .black, g, u⟩ :: path))
    (hholds : Holds m (some pa) t)
    (hnodup : (plug t (⟨e, .red, pa, s⟩ :: ⟨d, .black, g, u⟩ :: path)).toList.Nodup)
    (hfuel : path.length < fuel) :
    Balances m (fuel + 1) n t (⟨e, .red, pa, s⟩ :: ⟨d, .black, g, u⟩ :: path) := by
  have hnodup' := hnodup
  simp only [plug_cons, nodup_plug, nodup_join, List.disjoint_left, mem_join, not_or, or_imp,
    forall_and, forall_eq] at hnodup'
  have hpath' := hpath
  obtain ⟨hpp, hpc, hpt, hps, hsib, hgp, hgc, hgpa, hgu, hunc, hrest⟩ := hpath'
  simp only [top_cons] at hpp hpc hpt hps hsib hgp hgc hgpa hgu hunc
  have hside := side_eq hgpa hgu (by grind)
  unfold Balances
  rw [top_cons, Memory.insertLoop, if_neg (by simp [hpc])]
  simp only [Memory.rbRedParent, hpc, hpp, Option.bind_some, hside, hgu]
  by_cases hred : u.color = .red
  · rw [if_pos ((isRed_root hunc).mpr hred)]
    obtain ⟨hparent, hpath', hholds'⟩ := insertFlip_holds (ht ▸ hpath) hholds hnodup
    simp only [hparent]
    have hlist : (plug (join d .red g (join e .black pa t s) (recolor .black u)) path).toList =
        (plug t (⟨e, .red, pa, s⟩ :: ⟨d, .black, g, u⟩ :: path)).toList := by
      rw [plug_cons, plug_cons, toList_plug, toList_plug]
      cases d <;> cases e <;> simp
    have hblack : WellColored (join e .black pa t s) .black (k + 1) :=
      wellColored_black_iff.mpr ⟨rfl, k, rfl, hb.self, hs.self⟩
    rw [← hlist] at hnodup
    rw [hred] at hu
    obtain ⟨m', t', hloop, hrep, hlist', hj⟩ := ih root_join
      (wellColored_red_iff.mpr ⟨rfl, hblack, hu.blacken⟩) hfits hpath' hholds' hnodup hfuel
    exact ⟨m', t', hloop, hrep, hlist'.trans hlist, hj⟩
  · have hblack : u.color = .black := by
      cases hc : u.color with
      | red => exact absurd hc hred
      | black => rfl
    rw [hblack] at hu
    rw [if_neg fun h => hred ((isRed_root hunc).mp h)]
    by_cases hed : e = d
    · subst hed
      have hsn : s.root ≠ some n := by
        intro heq
        have hnt := mem_of_root ht
        have hns := mem_of_root heq
        grind
      have hlist : (plug (join e .black pa t (join e .red g s u)) path).toList =
          (plug t (⟨e, .red, pa, s⟩ :: ⟨e, .black, g, u⟩ :: path)).toList := by
        rw [plug_cons, plug_cons, toList_plug, toList_plug]
        cases e <;> simp
      have hrotate : m.insertRotate e n pa g = m.insertRotateGparent e pa g s.root := by
        unfold Memory.insertRotate
        simp only [hps, if_neg hsn]
      rw [hrotate]
      obtain ⟨hpath', hholds'⟩ := insertRotateGparent_holds (hpt.trans ht.symm) hholds hsib
        hs.color_eq hgu hunc hgp hgc hrest (hlist ▸ hnodup)
      refine ⟨_, _, rfl, represents_plug.mpr ⟨by rwa [root_join], hholds', hlist ▸ hnodup⟩,
        hlist, ?_⟩
      have hred' : WellColored (join e .red g s u) .red k := wellColored_red_iff.mpr ⟨rfl, hs, hu⟩
      exact (wellColored_black_iff.mpr ⟨rfl, k, rfl, hb.self,
        hred'.self⟩).plug hfits
    · obtain rfl : e = d.other := by cases e <;> cases d <;> simp_all [Side.other]
      obtain ⟨a, b, hjoin⟩ := exists_join d ht
      rw [hb.color_eq] at hjoin
      subst hjoin
      obtain ⟨-, ha, hb⟩ := wellColored_red_iff.mp hb
      have hlist : (plug (join d .black n (join d .red pa s a) (join d .red g b u)) path).toList =
          (plug (join d .red n a b)
            (⟨d.other, .red, pa, s⟩ :: ⟨d, .black, g, u⟩ :: path)).toList := by
        rw [plug_cons, plug_cons, toList_plug, toList_plug]
        cases d <;> simp [Side.other]
      rw [Side.other_other] at hps
      obtain ⟨hpath', hholds'⟩ := insertRotate_inner_holds hpt hholds hps hsib
        ha.color_eq hb.color_eq hgu hunc hgp hgc hrest (hlist ▸ hnodup)
      refine ⟨_, _, rfl, represents_plug.mpr ⟨by rwa [root_join], hholds', hlist ▸ hnodup⟩,
        hlist, ?_⟩
      have hnear : WellColored (join d .red pa s a) .red k := wellColored_red_iff.mpr ⟨rfl, hs, ha⟩
      have hfar : WellColored (join d .red g b u) .red k := wellColored_red_iff.mpr ⟨rfl, hb, hu⟩
      exact (wellColored_black_iff.mpr ⟨rfl, k, rfl, hnear.self, hfar.self⟩).plug hfits

theorem insertLoop_spec (ht : t.root = some n) (hb : WellColored t .red k)
    (hfits : Fits path .black k) (hpath : HoldsPath m (some n) path) (hholds : Holds m (top path) t)
    (hnodup : (plug t path).toList.Nodup) (hfuel : path.length < fuel) :
    ∃ m' t', m.insertLoop fuel n (top path) = some m' ∧ Represents m' t' ∧
      t'.toList = (plug t path).toList ∧ ∃ j, WellColored t' .black j := by
  induction fuel generalizing m n t path k with
  | zero => exact absurd hfuel (Nat.not_lt_zero _)
  | succ fuel ih =>
    obtain ⟨c, l, r, rfl⟩ := root_eq_some_iff.mp ht
    obtain rfl : c = .red := hb.color_eq
    cases path with
    | nil =>
      have hroot : m.root = some n := hpath
      refine ⟨_, recolor .black (.node .red l n r), rfl, ⟨hroot, ?_, by simpa using hnodup⟩,
        by simp, k + 1, hb.blacken⟩
      refine hholds.reparent (by simpa using hnodup) (fun y hy => ?_) fun y _ hy => ?_
      · obtain rfl : n = y := by simpa using hy
        simp
      · have hyn : y ≠ n := by simpa [eq_comm] using hy
        exact ⟨by simp [hyn], by simp [hyn], fun e => rfl⟩
    | cons f path =>
      obtain ⟨e, c, pa, s⟩ := f
      have hcolor : m.color pa = c := hpath.2.1
      cases c with
      | black =>
        have hfits' : Fits (⟨e, .black, pa, s⟩ :: path) .red k := by
          cases hfits with
          | red hs _ _ => cases hs
          | black hs hsib hrest => exact .black hs hsib hrest
        refine ⟨m, _, if_pos hcolor, (represents_plug (t := .node .red l n r)).mpr
          ⟨hpath, hholds, hnodup⟩, rfl, ?_⟩
        exact hb.plug hfits'
      | red =>
        cases hfits with
        | black hs _ _ => cases hs
        | red _ hsib hrest =>
          obtain ⟨⟨d, cg, g, u⟩, path, rfl, hcg, hu, hfits⟩ := hrest.exists_black
          obtain rfl : cg = .black := hcg
          have hlt : path.length < fuel := by
            simp only [List.length_cons] at hfuel
            omega
          exact balances_of_red ih rfl hb hsib hu hfits hpath hholds hnodup hlt

end Training.RbTree
