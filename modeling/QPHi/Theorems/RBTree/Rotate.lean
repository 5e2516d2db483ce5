import QPHi.Theorems.RBTree.Shape

/-! Painting a node and rotating at a node, on the shape in memory. -/

namespace QPHi.RBTree
open BinTree

variable {t t' t'' : RBTree} {c : Context Ptr} {s u v : BinTree Ptr} {d : Side} {k k' : Color} {a b x y : Ptr}
  {ls : List Ptr}

/-- What repairing a tree with the addresses `ls` keeps: it writes links and colours of these nodes only. -/
structure Relinked (ls : List Ptr) (t t' : RBTree) : Prop where
  nil : t'.nil = t.nil
  key : ∀ a, (t'.mem a).key = (t.mem a).key
  data : ∀ a, (t'.mem a).data = (t.mem a).data
  outside : ∀ a, a ∉ ls → t'.mem a = t.mem a

namespace Relinked

theorem refl (ls : List Ptr) (t : RBTree) : Relinked ls t t := ⟨rfl, fun _ => rfl, fun _ => rfl, fun _ _ => rfl⟩

theorem trans (h : Relinked ls t t') (h' : Relinked ls t' t'') : Relinked ls t t'' where
  nil := h'.nil.trans h.nil
  key a := (h'.key a).trans (h.key a)
  data a := (h'.data a).trans (h.data a)
  outside a ha := (h'.outside a ha).trans (h.outside a ha)

end Relinked

@[simp] theorem write_mem (t : RBTree) (a : Ptr) (n : Node) : (t.write a n).mem = Function.update t.mem a n := rfl
@[simp] theorem write_nil (t : RBTree) (a : Ptr) (n : Node) : (t.write a n).nil = t.nil := rfl
@[simp] theorem write_root (t : RBTree) (a : Ptr) (n : Node) : (t.write a n).root = t.root := rfl
@[simp] theorem write_addr (t : RBTree) (a : Ptr) (n : Node) (s : BinTree Ptr) : (t.write a n).addr s = t.addr s :=
  addr_eq (write_nil t a n) s
@[simp] theorem write_up (t : RBTree) (a : Ptr) (n : Node) (c : Context Ptr) : (t.write a n).up c = t.up c :=
  up_eq (write_nil t a n) c

theorem modify_of_ne {f : Node → Node} (h : a ≠ NULL) : t.modify a f = some (t.write a (f (t.mem a))) := if_neg h
theorem load_of_ne (h : a ≠ NULL) : t.load a = some (t.mem a) := if_neg h
theorem setColor_of_ne (h : a ≠ NULL) : t.setColor k a = t.write a ((t.mem a).setColor k) := if_neg h

/-! ### Painting -/

theorem At.setColor (k' : Color) (h : At t c (branch d k s a u)) :
    At (t.setColor k' a) c (branch d k' s a u) ∧
      Relinked (plug c (branch d k s a u)).toList t (t.setColor k' a) := by
  obtain ⟨ha, hn, hd, hf, hp, hk, hs, hu⟩ := linked_branch.mp h.focus
  obtain ⟨hnd, -, hdis⟩ := nodup_toList_plug.mp h.nodup
  obtain ⟨has, hau, -⟩ := nodup_toList_branch.mp hnd
  rw [setColor_of_ne ha]
  have hmem : ∀ b, b ≠ a → (t.write a ((t.mem a).setColor k')).mem b = t.mem b :=
    fun b hb => Function.update_of_ne hb _ _
  have hself : (t.write a ((t.mem a).setColor k')).mem a = (t.mem a).setColor k' := Function.update_self _ _ _
  constructor
  · refine ⟨h.nil_ne, ?_, ?_, linked_branch.mpr ⟨ha, hn, ?_, ?_, ?_, ?_, ?_, ?_⟩, ?_⟩
    · rw [write_nil, hmem t.nil hn.symm]
      exact h.nil_black
    · have hc : LinkedIn t c a := by simpa using h.context
      rw [addr_branch]
      refine hc.congr (write_nil t a _) (write_root t a _) fun b hb => hmem b ?_
      rintro rfl
      exact hdis (by simp) hb
    · rw [hself, Node.setColor_child, write_addr, hd]
    · rw [hself, Node.setColor_child, write_addr, hf]
    · rw [hself, Node.setColor_parent, write_up, hp]
    · rw [hself, Node.setColor_color]
    · exact hs.congr (write_nil t a _) fun b hb => hmem b fun e => has (e ▸ hb)
    · exact hu.congr (write_nil t a _) fun b hb => hmem b fun e => hau (e ▸ hb)
    · rw [toList_plug_congr (toList_branch_color d k' k s u a)]
      exact h.nodup
  · refine ⟨rfl, fun b => ?_, fun b => ?_, fun b hb => hmem b ?_⟩
    · by_cases hb : b = a
      · subst hb
        rw [hself, Node.setColor_key]
      · rw [hmem b hb]
    · by_cases hb : b = a
      · subst hb
        rw [hself, Node.setColor_data]
      · rw [hmem b hb]
    · rintro rfl
      exact hb (mem_toList_plug.mpr (Or.inl (by simp)))

/-! ### Rotating -/

theorem relink_of_child {p : Ptr} (new : Ptr) (hx : x ≠ NULL) (hp : t.parent x = p) (hp0 : p ≠ NULL)
    (hd : (t.mem p).child d = x) (hf : (t.mem p).child d.flip ≠ x) :
    t.relink x new = some (t.write p ((t.mem p).setChild new d)) := by
  cases d with
  | left =>
    have hd : (t.mem p).left = x := hd
    simp [relink, isLeft, isChild, Node.child, hx, hp, load_of_ne hp0, hd, modify_of_ne hp0]
  | right =>
    have hf : x ≠ (t.mem p).left := fun e => hf e.symm
    simp [relink, isLeft, isChild, Node.child, hx, hp, load_of_ne hp0, hf, modify_of_ne hp0]

/-- A node is not its own sibling. -/
theorem At.sib_ne {f : Frame Ptr} (h : At t (f :: c) s) (hs : s ≠ .nil) : t.addr f.sib ≠ t.addr s := by
  intro e
  have hmem := (addr_eq_nil_or_mem t s).resolve_left hs
  rcases addr_eq_nil_or_mem t f.sib with hnil | hsib
  · rw [hnil, addr_nil] at e
    exact h.addr_ne_nil hs e.symm
  · refine (nodup_toList_plug.mp h.nodup).2.2 hmem ?_
    simp only [labels, List.mem_cons, List.mem_append, ← e]
    exact Or.inr (Or.inl hsib)

/-- The memory after a rotation at `x` below the node of `c`: `y` takes the place of `x`, `x` becomes its
    child and the subtree `v` in between changes its parent. -/
structure Rotated (d : Side) (c : Context Ptr) (v : BinTree Ptr) (x y : Ptr) (t t' : RBTree) : Prop where
  nil : t'.nil = t.nil
  root : c = [] → t'.root = y
  root_ne : c ≠ [] → t'.root = t.root
  upper : t'.mem y = ((t.mem y).setParent (t.up c)).setChild x d
  lower : t'.mem x = ((t.mem x).setParent y).setChild (t.addr v) d.flip
  inner : v ≠ .nil → t'.mem (t.addr v) = (t.mem (t.addr v)).setParent x
  above : ∀ f c', c = f :: c' → t'.mem f.label = (t.mem f.label).setChild y f.side
  outside : ∀ a, a ≠ x → a ≠ y → (v ≠ .nil → a ≠ t.addr v) → (c ≠ [] → a ≠ t.up c) → t'.mem a = t.mem a

/-- The addresses that a rotation writes to are different ones. -/
structure Apart (t : RBTree) (c : Context Ptr) (v : BinTree Ptr) (x y : Ptr) : Prop where
  nodes : x ≠ y
  lower : v ≠ .nil → t.addr v ≠ x
  upper : v ≠ .nil → t.addr v ≠ y
  above : c ≠ [] → t.up c ≠ x ∧ t.up c ≠ y ∧ (v ≠ .nil → t.up c ≠ t.addr v)

theorem up_mem_labels (t : RBTree) (hc : c ≠ []) : t.up c ∈ labels c := by
  obtain ⟨f, c', rfl⟩ := List.exists_cons_of_ne_nil hc
  exact List.mem_cons_self

theorem addr_mem (t : RBTree) (hs : s ≠ .nil) : t.addr s ∈ s.toList := (addr_eq_nil_or_mem t s).resolve_left hs

theorem At.apart (h : At t c (branch d k s x (branch d k' v y u))) : Apart t c v x y := by
  obtain ⟨hnd, -, hdis⟩ := nodup_toList_plug.mp h.nodup
  obtain ⟨-, hxr, -, hndr, -⟩ := nodup_toList_branch.mp hnd
  obtain ⟨hyv, -⟩ := nodup_toList_branch.mp hndr
  refine ⟨fun e => hxr (by simp [e]), fun hv e => hxr ?_, fun hv e => hyv (e ▸ addr_mem t hv), fun hc => ⟨?_, ?_, fun hv => ?_⟩⟩
  · simp [← e, addr_mem t hv]
  · exact fun e => hdis (by simp [e]) (up_mem_labels t hc)
  · exact fun e => hdis (by simp [e]) (up_mem_labels t hc)
  · exact fun e => hdis (by simp [e, addr_mem t hv]) (up_mem_labels t hc)

theorem At.rotated (h : At t c (branch d k s x (branch d k' v y u))) :
    ∃ t', t.rotate d x = some t' ∧ Rotated d c v x y t t' := by
  obtain ⟨hx, hxn, -, hxf, hxp, -, -, hy⟩ := linked_branch.mp h.focus
  obtain ⟨hy0, hyn, hyd, -, -, -, -, -⟩ := linked_branch.mp hy
  rw [addr_branch] at hxf
  have hvat := At.down (At.down_flip h)
  have hv0 : t.addr v ≠ NULL := hvat.addr_ne_null
  obtain ⟨hxy, hvx, hvy, hup⟩ := h.apart
  -- The link from above is the root pointer or a child of the node above.
  obtain ⟨t₁, ht₁⟩ : ∃ t₁, t₁ = t.write y ((t.mem y).setParent (t.parent x)) := ⟨_, rfl⟩
  obtain ⟨t₂, hstep, hnil, hroot, hroot', habove, hout⟩ : ∃ t₂, t₁.replaceChild x y = some t₂ ∧ t₂.nil = t.nil ∧
      (c = [] → t₂.root = y) ∧ (c ≠ [] → t₂.root = t.root) ∧
      (∀ f c', c = f :: c' → t₂.mem f.label = (t₁.mem f.label).setChild y f.side) ∧
      (∀ a, (c ≠ [] → a ≠ t.up c) → t₂.mem a = t₁.mem a) := by
    cases c with
    | nil =>
      have hroot : t₁.root = x := by
        rw [ht₁]
        simpa [LinkedIn] using h.context
      exact ⟨{ t₁ with root := y }, by simp [replaceChild, hroot], by simp [ht₁], fun _ => rfl, by simp, by simp,
        fun _ _ => rfl⟩
    | cons f c =>
      obtain ⟨hfx, hfy, -⟩ : f.label ≠ x ∧ f.label ≠ y ∧ _ := hup (List.cons_ne_nil f c)
      have hroot : x ≠ t₁.root := by
        rw [ht₁, write_root]
        intro e
        have := h.addr_eq_root_iff.mp (by simpa using e)
        cases this
      have hf := h.context
      rw [addr_branch] at hf
      have hmemf : t₁.mem f.label = t.mem f.label := by
        rw [ht₁]
        exact Function.update_of_ne hfy _ _
      have hpar : t₁.parent x = f.label := by
        have hxp : (t.mem x).parent = f.label := hxp
        rw [ht₁]
        simpa [parent, hx, Function.update_of_ne hxy] using hxp
      have hsib := h.sib_ne (by cases d <;> simp [branch])
      rw [addr_branch] at hsib
      have hlink := relink_of_child y hx hpar hf.1 (hmemf ▸ hf.2.2.1) (by rwa [hmemf, hf.2.2.2.1])
      refine ⟨_, (if_neg hroot).trans hlink, by simp [ht₁], by simp, by simp [ht₁], ?_, ?_⟩
      · rintro f' c' e
        cases e
        simp
      · intro a ha
        exact Function.update_of_ne (ha (by simp)) _ _
  have hpx : t.parent x = t.up c := by simpa [parent, hx] using hxp
  have hcx : c ≠ [] → x ≠ t.up c := fun hc => (hup hc).1.symm
  have hcy : c ≠ [] → y ≠ t.up c := fun hc => (hup hc).2.1.symm
  have hcv : v ≠ .nil → c ≠ [] → t.addr v ≠ t.up c := fun hv hc => ((hup hc).2.2 hv).symm
  have h2x : t₂.mem x = t.mem x := by rw [hout x hcx, ht₁, write_mem, Function.update_of_ne hxy]
  have h2y : t₂.mem y = (t.mem y).setParent (t.up c) := by rw [hout y hcy, ht₁, write_mem, Function.update_self, hpx]
  have hinner : (t₂.mem y).child d = t.addr v := by rw [h2y, Node.setParent_child, hyd]
  -- The remaining writes are at `x`, at the root of `v` and at `y`.
  obtain ⟨t₃, ht₃⟩ : ∃ t₃, t₃ = (t₂.write x ((t.mem x).setParent y)).write x
      (((t.mem x).setParent y).setChild (t.addr v) d.flip) := ⟨_, rfl⟩
  have h3n : t₃.nil = t.nil := by simp [ht₃, hnil]
  have h3 : ∀ a, a ≠ x → t₃.mem a = t₂.mem a := by
    intro a ha
    simp [ht₃, Function.update_of_ne ha]
  obtain ⟨t₄, hadopt, h4n, h4r, h4v, h4⟩ : ∃ t₄, t₃.adopt (t.addr v) x = some t₄ ∧ t₄.nil = t.nil ∧
      t₄.root = t₃.root ∧ (v ≠ .nil → t₄.mem (t.addr v) = (t₃.mem (t.addr v)).setParent x) ∧
      (∀ a, (v ≠ .nil → a ≠ t.addr v) → t₄.mem a = t₃.mem a) := by
    by_cases hv : v = .nil
    · exact ⟨t₃, by simp [adopt, hv, h3n], h3n, rfl, fun h => absurd hv h, fun _ _ => rfl⟩
    · have hne : t.addr v ≠ t₃.nil := h3n ▸ hvat.addr_ne_nil hv
      refine ⟨t₃.write (t.addr v) ((t₃.mem (t.addr v)).setParent x), ?_, by simp [h3n], rfl, fun _ => by simp,
        fun a ha => Function.update_of_ne (ha hv) _ _⟩
      rw [adopt, if_pos hne, modify_of_ne hv0]
  refine ⟨t₄.write y ((t₄.mem y).setChild x d), ?_, ?_⟩
  · have hchild : Function.update t₂.mem x ((t.mem x).setParent y) y = t₂.mem y := Function.update_of_ne hxy.symm _ _
    simp only [rotate, load_of_ne hx, Option.bind_eq_bind, Option.bind_some, hxf, modify_of_ne hy0, ← ht₁, hstep,
      modify_of_ne hx, load_of_ne hy0, write_mem, hchild, hinner, h2x, Function.update_self, ← ht₃, hadopt]
  · have h4y : t₄.mem y = t₂.mem y := by rw [h4 y fun hv => (hvy hv).symm, h3 y hxy.symm]
    refine ⟨by simp [h4n], fun hc => by simp [h4r, ht₃, hroot hc], fun hc => by simp [h4r, ht₃, hroot' hc], ?_, ?_, ?_,
      ?_, ?_⟩
    · simp [h4y, h2y]
    · rw [write_mem, Function.update_of_ne hxy, h4 x fun hv => (hvx hv).symm, ht₃]
      simp
    · intro hv
      rw [write_mem, Function.update_of_ne (hvy hv), h4v hv, h3 _ (hvx hv), hout _ (hcv hv), ht₁, write_mem,
        Function.update_of_ne (hvy hv)]
    · intro f c' hc
      obtain ⟨hfx, hfy, hfv⟩ : f.label ≠ x ∧ f.label ≠ y ∧ (v ≠ .nil → f.label ≠ t.addr v) := by
        subst hc
        exact hup (List.cons_ne_nil f c')
      rw [write_mem, Function.update_of_ne hfy, h4 _ hfv, h3 _ hfx, habove f c' hc, ht₁, write_mem,
        Function.update_of_ne hfy]
    · intro a hax hay hav hac
      rw [write_mem, Function.update_of_ne hay, h4 a hav, h3 a hax, hout a hac, ht₁, write_mem,
        Function.update_of_ne hay]

namespace Rotated

/-- What neither the links nor the parent of a node change. -/
theorem keeps {β : Type} (h : Rotated d c v x y t t') (f : Node → β) (hparent : ∀ n p, f (n.setParent p) = f n)
    (hchild : ∀ n p e, f (n.setChild p e) = f n) (a : Ptr) : f (t'.mem a) = f (t.mem a) := by
  by_cases hx : a = x
  · rw [hx, h.lower, hchild, hparent]
  by_cases hy : a = y
  · rw [hy, h.upper, hchild, hparent]
  by_cases hv : v ≠ .nil ∧ a = t.addr v
  · rw [hv.2, h.inner hv.1, hparent]
  have hav : v ≠ .nil → a ≠ t.addr v := fun hn e => hv ⟨hn, e⟩
  cases c with
  | nil => rw [h.outside a hx hy hav fun hc => absurd rfl hc]
  | cons g c =>
    by_cases hg : a = g.label
    · rw [hg, h.above g c rfl, hchild]
    · rw [h.outside a hx hy hav fun _ => hg]

theorem key (h : Rotated d c v x y t t') (a : Ptr) : (t'.mem a).key = (t.mem a).key :=
  h.keeps Node.key (fun n p => n.setParent_key p) (fun n p e => n.setChild_key p e) a

theorem data (h : Rotated d c v x y t t') (a : Ptr) : (t'.mem a).data = (t.mem a).data :=
  h.keeps Node.data (fun n p => n.setParent_data p) (fun n p e => n.setChild_data p e) a

theorem color (h : Rotated d c v x y t t') (a : Ptr) : (t'.mem a).color = (t.mem a).color :=
  h.keeps Node.color (fun n p => n.setParent_color p) (fun n p e => n.setChild_color p e) a

/-- The memory after a rotation holds the rotated shape. -/
theorem shape (R : Rotated d c v x y t t') (h : At t c (branch d k s x (branch d k' v y u))) :
    At t' c (branch d k' (branch d k s x v) y u) := by
  obtain ⟨hx, hxn, hxd, -, -, hxk, hs, hy⟩ := linked_branch.mp h.focus
  obtain ⟨hy0, hyn, -, hyf, -, hyk, hv, hu⟩ := linked_branch.mp hy
  obtain ⟨hnd, hndc, hdis⟩ := nodup_toList_plug.mp h.nodup
  obtain ⟨hxs, hxr, -, hndr, hsr⟩ := nodup_toList_branch.mp hnd
  obtain ⟨hyv, hyu, hndv, -, hvu⟩ := nodup_toList_branch.mp hndr
  rw [mem_toList_branch, not_or, not_or] at hxr
  obtain ⟨hxy, hxv, hxu⟩ := hxr
  have hvat := At.down (At.down_flip h)
  -- Nothing else in the focus is written.
  have hfocus : ∀ a, a ∈ (branch d k s x (branch d k' v y u)).toList → a ≠ x → a ≠ y →
      (v ≠ .nil → a ≠ t.addr v) → t'.mem a = t.mem a := by
    intro a ha hax hay hav
    refine R.outside a hax hay hav fun hc e => ?_
    exact hdis ha (e ▸ up_mem_labels t hc)
  refine ⟨R.nil ▸ h.nil_ne, ?_, ?_, ?_, ?_⟩
  · rw [R.nil, R.color]
    exact h.nil_black
  · rw [addr_branch]
    refine LinkedIn.repoint R.nil hndc R.root R.root_ne R.above (fun a ha hne => ?_) h.context
    refine R.outside a ?_ ?_ ?_ fun _ => hne
    · rintro rfl
      exact hdis (by simp) ha
    · rintro rfl
      exact hdis (by simp) ha
    · rintro hv rfl
      exact hdis (by simp [addr_mem t hv]) ha
  · rw [linked_branch, linked_branch, addr_branch, R.nil, addr_eq R.nil, addr_eq R.nil, addr_eq R.nil, up_eq R.nil]
    refine ⟨hy0, hyn, ?_, ?_, ?_, ?_, ⟨hx, hxn, ?_, ?_, ?_, ?_, ?_, ?_⟩, ?_⟩
    · rw [R.upper, Node.setChild_child]
    · rw [R.upper, Node.setChild_child_flip, Node.setParent_child, hyf]
    · rw [R.upper, Node.setChild_parent, Node.setParent_parent]
    · rw [R.color, hyk]
    · rw [R.lower, Node.setChild_flip_child, Node.setParent_child, hxd]
    · rw [R.lower, Node.setChild_child]
    · rw [R.lower, Node.setChild_parent, Node.setParent_parent]
    · rw [R.color, hxk]
    · refine hs.congr R.nil fun a ha => hfocus a (by simp [ha]) (fun e => hxs (e ▸ ha)) ?_ ?_
      · rintro rfl
        exact hsr ha (by simp)
      · rintro hv rfl
        exact hsr ha (by simp [addr_mem t hv])
    · refine hv.reparent R.nil hndv R.inner fun a ha hne => ?_
      exact hfocus a (by simp [ha]) (fun e => hxv (e ▸ ha)) (fun e => hyv (e ▸ ha)) fun _ => hne
    · refine hu.congr R.nil fun a ha => hfocus a (by simp [ha]) (fun e => hxu (e ▸ ha)) (fun e => hyu (e ▸ ha)) ?_
      rintro hv rfl
      exact hvu (addr_mem t hv) ha
  · rw [← toList_plug_congr (toList_rotate d s v u x y)]
    exact h.nodup

theorem relinked (R : Rotated d c v x y t t') : Relinked (plug c (branch d k s x (branch d k' v y u))).toList t t' := by
  refine ⟨R.nil, R.key, R.data, fun a ha => ?_⟩
  rw [mem_toList_plug, not_or] at ha
  simp only [mem_toList_branch, not_or] at ha
  refine R.outside a ha.1.1 ha.1.2.2.1 ?_ fun hc e => ha.2 (e ▸ up_mem_labels t hc)
  rintro hv rfl
  exact ha.1.2.2.2.1 (addr_mem t hv)

end Rotated

/-- A rotation at `x` in memory is a rotation of the shape. -/
theorem At.rotate (h : At t c (branch d k s x (branch d k' v y u))) :
    ∃ t', t.rotate d x = some t' ∧ At t' c (branch d k' (branch d k s x v) y u) ∧
      Relinked (plug c (branch d k s x (branch d k' v y u))).toList t t' := by
  obtain ⟨t', hrot, R⟩ := h.rotated
  exact ⟨t', hrot, R.shape h, R.relinked⟩

/-! ### Repairing a tree -/

/-- During a repair of the tree `t₀` with the nodes `ls`: the memory of `t` holds `plug c s`, which has the
    same nodes in the same order, and differs from `t₀` in links and colours only. -/
structure Held (ls : List Ptr) (t₀ t : RBTree) (c : Context Ptr) (s : BinTree Ptr) : Prop where
  focus : At t c s
  order : (plug c s).toList = ls
  relinked : Relinked ls t₀ t

namespace Held
variable {t₀ : RBTree} {f : Frame Ptr}

theorem up (h : Held ls t₀ t (⟨d, k, a, u⟩ :: c) s) : Held ls t₀ t c (branch d k s a u) :=
  ⟨h.focus.up, h.order, h.relinked⟩

theorem down (h : Held ls t₀ t c (branch d k s a u)) : Held ls t₀ t (⟨d, k, a, u⟩ :: c) s :=
  ⟨h.focus.down, h.order, h.relinked⟩

theorem up_flip (h : Held ls t₀ t (⟨d.flip, k, a, s⟩ :: c) u) : Held ls t₀ t c (branch d k s a u) :=
  ⟨h.focus.up_flip, by rw [← h.order, plug_cons, Frame.fill, branch_flip], h.relinked⟩

theorem down_flip (h : Held ls t₀ t c (branch d k s a u)) : Held ls t₀ t (⟨d.flip, k, a, s⟩ :: c) u :=
  ⟨h.focus.down_flip, by rw [← h.order, plug_cons, Frame.fill, branch_flip], h.relinked⟩

theorem setColor (k' : Color) (h : Held ls t₀ t c (branch d k s a u)) :
    Held ls t₀ (t.setColor k' a) c (branch d k' s a u) := by
  obtain ⟨hat, R⟩ := h.focus.setColor k'
  refine ⟨hat, ?_, h.relinked.trans (h.order ▸ R)⟩
  rw [← h.order]
  exact toList_plug_congr (toList_branch_color d k' k s u a)

theorem rotate (h : Held ls t₀ t c (branch d k s x (branch d k' v y u))) :
    ∃ t', t.rotate d x = some t' ∧ Held ls t₀ t' c (branch d k' (branch d k s x v) y u) := by
  obtain ⟨t', hrot, hat, R⟩ := h.focus.rotate
  refine ⟨t', hrot, hat, ?_, h.relinked.trans (h.order ▸ R)⟩
  rw [← h.order]
  exact (toList_plug_congr (toList_rotate d s v u x y)).symm

/-- A node keeps its address. -/
theorem addr_eq {t₁ : RBTree} {c₁ : Context Ptr} {s₁ : BinTree Ptr} (h : Held ls t₀ t c s)
    (h₁ : Held ls t₀ t₁ c₁ s₁) (v : BinTree Ptr) : t₁.addr v = t.addr v :=
  RBTree.addr_eq (h₁.relinked.nil.trans h.relinked.nil.symm) v

end Held

end QPHi.RBTree
