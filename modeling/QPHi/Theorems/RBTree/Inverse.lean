import QPHi.Theorems.RBTree.Rotate

/-! Rotating back gives the tree from before, link by link. The colours play no part in it, not even that of the
    sentinel. -/

namespace QPHi.RBTree
open BinTree

variable {t t' t'' : RBTree} {c : Context Ptr} {s u v : BinTree Ptr} {d : Side} {k k' : Color} {a p x y : Ptr}
  {g : Ptr → Color}

/-! ### Rotations do not look at colours -/

/-- The tree with the colours of `g`. -/
def repaint (g : Ptr → Color) (t : RBTree) : RBTree := { t with mem := fun a => (t.mem a).setColor (g a) }

@[simp] theorem repaint_mem : (t.repaint g).mem a = (t.mem a).setColor (g a) := rfl
@[simp] theorem repaint_nil : (t.repaint g).nil = t.nil := rfl
@[simp] theorem repaint_root : (t.repaint g).root = t.root := rfl

theorem repaint_repaint {g' : Ptr → Color} : (t.repaint g).repaint g' = t.repaint g' := rfl

/-- The colours that the tree has already. -/
theorem repaint_own (t : RBTree) : t.repaint (fun a => (t.mem a).color) = t := rfl

theorem load_repaint : (t.repaint g).load a = (t.load a).map (·.setColor (g a)) := by
  unfold load
  split <;> rfl

theorem parent_repaint : (t.repaint g).parent a = t.parent a := rfl

theorem isChild_repaint : (t.repaint g).isChild d a = t.isChild d a := by
  unfold isChild
  rw [parent_repaint, load_repaint]
  cases t.load (t.parent a) with
  | none => rfl
  | some n => simp

theorem write_repaint (n : Node) : (t.repaint g).write a (n.setColor (g a)) = (t.write a n).repaint g := by
  unfold repaint write
  congr 1
  funext b
  by_cases hb : b = a
  · subst hb
    simp
  · simp [hb]

/-- A write that keeps the colour. -/
theorem modify_repaint {f : Node → Node} (hf : ∀ n k, f (n.setColor k) = (f n).setColor k) :
    (t.repaint g).modify a f = (t.modify a f).map (repaint g) := by
  unfold modify
  split
  · rfl
  · rw [repaint_mem, hf, write_repaint]
    rfl

theorem modifyParent_repaint : (t.repaint g).modify a (·.setParent p) = (t.modify a (·.setParent p)).map (repaint g) :=
  modify_repaint fun _ _ => rfl

theorem modifyChild_repaint : (t.repaint g).modify a (·.setChild p d) = (t.modify a (·.setChild p d)).map (repaint g) :=
  modify_repaint fun n k => by cases d <;> rfl

theorem bind_repaint {m : Option RBTree} {F F' : RBTree → Option RBTree} (h : ∀ t, F' (t.repaint g) = (F t).map (repaint g)) :
    (m.map (repaint g) >>= F') = (m >>= F).map (repaint g) := by
  cases m with
  | none => rfl
  | some t => exact h t

theorem relink_repaint {node new : Ptr} : (t.repaint g).relink node new = (t.relink node new).map (repaint g) := by
  unfold relink isLeft
  rw [isChild_repaint, parent_repaint]
  cases t.isChild .left node with
  | none => rfl
  | some b =>
    cases b with
    | true => exact modifyChild_repaint
    | false => exact modifyChild_repaint

theorem replaceChild_repaint {node new : Ptr} :
    (t.repaint g).replaceChild node new = (t.replaceChild node new).map (repaint g) := by
  unfold replaceChild
  rw [repaint_root, relink_repaint]
  split <;> rfl

theorem adopt_repaint {child node : Ptr} : (t.repaint g).adopt child node = (t.adopt child node).map (repaint g) := by
  unfold adopt
  rw [repaint_nil, modifyParent_repaint]
  split <;> rfl

theorem rotate_repaint : (t.repaint g).rotate d x = (t.rotate d x).map (repaint g) := by
  unfold rotate
  rw [load_repaint]
  cases t.load x with
  | none => rfl
  | some n =>
    simp only [Option.map_some, Option.bind_eq_bind, Option.bind_some, Node.setColor_child, parent_repaint]
    rw [modifyParent_repaint]
    refine bind_repaint fun t₁ => ?_
    rw [replaceChild_repaint]
    refine bind_repaint fun t₂ => ?_
    rw [modifyParent_repaint]
    refine bind_repaint fun t₃ => ?_
    rw [load_repaint]
    cases t₃.load (n.child d.flip) with
    | none => rfl
    | some m =>
      simp only [Option.map_some, Option.bind_some, Node.setColor_child]
      rw [modifyChild_repaint]
      refine bind_repaint fun t₄ => ?_
      rw [adopt_repaint]
      refine bind_repaint fun t₅ => ?_
      exact modifyChild_repaint

/-! ### Rotating back -/

theorem setChild_twice (n : Node) {q q' : Ptr} (hq : n.child d = q') : (n.setChild q d).setChild q' d = n := by
  subst hq
  cases d <;> rfl

theorem setParent_twice (n : Node) {p p' : Ptr} (hp : n.parent = p') : (n.setParent p).setParent p' = n := by
  subst hp
  rfl

theorem setBoth_twice (n : Node) {p p' q q' : Ptr} (hp : n.parent = p') (hq : n.child d = q') :
    (((n.setParent p).setChild q d).setParent p').setChild q' d = n := by
  subst hp hq
  cases d <;> rfl

theorem eq_of_fields (hroot : t'.root = t.root) (hnil : t'.nil = t.nil) (hmem : t'.mem = t.mem) : t' = t := by
  cases t
  cases t'
  cases hroot
  cases hnil
  cases hmem
  rfl

/-- The second of two rotations gives back to every field that the first one writes what it was. -/
theorem Rotated.back (R : Rotated d c v x y t t') (R' : Rotated d.flip c v y x t' t'')
    (h : At t c (branch d k s x (branch d k' v y u))) : t'' = t := by
  obtain ⟨-, -, -, hxf, hxp, -, -, hy⟩ := linked_branch.mp h.focus
  obtain ⟨-, -, hyd, -, hyp, -, hv, -⟩ := linked_branch.mp hy
  rw [addr_branch] at hxf
  have haddr : t'.addr v = t.addr v := addr_eq R.nil v
  have habove : t'.up c = t.up c := up_eq R.nil c
  refine eq_of_fields ?_ (R'.nil.trans R.nil) (funext fun a => ?_)
  · by_cases hc : c = []
    · subst hc
      have hroot : t.root = x := by simpa [LinkedIn] using h.context
      rw [R'.root rfl, hroot]
    · rw [R'.root_ne hc, R.root_ne hc]
  by_cases hax : a = x
  · subst hax
    rw [R'.upper, R.lower, habove]
    exact setBoth_twice _ hxp hxf
  by_cases hay : a = y
  · subst hay
    rw [R'.lower, R.upper, haddr, Side.flip_flip]
    exact setBoth_twice _ hyp hyd
  by_cases hav : v ≠ .nil ∧ a = t.addr v
  · obtain ⟨hv₀, rfl⟩ := hav
    have hinner := R'.inner hv₀
    rw [haddr, R.inner hv₀] at hinner
    rw [hinner]
    exact setParent_twice _ (hv.parent_addr hv₀)
  by_cases hac : c ≠ [] ∧ a = t.up c
  · obtain ⟨hc, rfl⟩ := hac
    obtain ⟨f, c', rfl⟩ := List.exists_cons_of_ne_nil hc
    have hchild : (t.mem f.label).child f.side = x := by simpa using h.context.2.2.1
    have hlabel : t''.mem f.label = ((t.mem f.label).setChild y f.side).setChild x f.side := by
      rw [R'.above f c' rfl, R.above f c' rfl]
    exact hlabel.trans (setChild_twice _ hchild)
  have hav' : v ≠ .nil → a ≠ t.addr v := fun hv₀ e => hav ⟨hv₀, e⟩
  have hac' : c ≠ [] → a ≠ t.up c := fun hc e => hac ⟨hc, e⟩
  rw [R'.outside a hay hax (haddr ▸ hav') (habove ▸ hac'), R.outside a hax hay hav' hac']

/-- A rotation and its way back. -/
theorem At.rotate_back (h : At t c (branch d k s x (branch d k' v y u))) :
    ∃ t', t.rotate d x = some t' ∧ Rotated d c v x y t t' ∧ t'.rotate d.flip y = some t := by
  obtain ⟨t', hrot, R⟩ := h.rotated
  have hflip : branch d k' (branch d k s x v) y u = branch d.flip k' u y (branch d.flip k v x s) := by
    rw [branch_flip, branch_flip]
  obtain ⟨t'', hback, R'⟩ := (hflip ▸ R.shape h).rotated
  rw [R.back R' h] at hback
  exact ⟨t', hrot, R, hback⟩

/-! ### Well-linked trees -/

/-- The links of `t` spell out the tree `s`, in both directions: the sentinel stands above the root and at the leaves, and a
    node is reached in one way only. -/
structure WellLinked (t : RBTree) (s : BinTree Ptr) : Prop where
  nil_ne : t.nil ≠ NULL
  root : t.root = t.addr s
  links : Linked t t.nil s
  nodup : s.toList.Nodup

/-- Colours that agree with the tree on its nodes. -/
theorem Linked.repaint (h : Linked t p s) (hg : ∀ a ∈ s.toList, g a = (t.mem a).color) : Linked (t.repaint g) p s := by
  refine h.congr repaint_nil fun a ha => ?_
  rw [repaint_mem, hg a ha]
  rfl

/-- With a black sentinel, a well-linked tree is the shape of its memory. -/
theorem WellLinked.shape (h : WellLinked t s) :
    Shape (t.repaint (Function.update (fun a => (t.mem a).color) t.nil .black)) s := by
  refine ⟨h.nil_ne, by simp, h.root.trans (addr_eq rfl s).symm, h.links.repaint fun a ha => ?_, h.nodup⟩
  exact Function.update_of_ne (h.links.mem_ne ha).2 _ _

/-- What a rotation at `x` makes of the tree `s` in `t`: its child `y` takes its place, and the subtrees stay what they
    are. -/
structure Turned (d : Side) (s : BinTree Ptr) (x y : Ptr) (t t' : RBTree) : Prop where
  nil : t'.nil = t.nil
  sentinel : t'.mem t.nil = t.mem t.nil
  key : ∀ a, (t'.mem a).key = (t.mem a).key
  data : ∀ a, (t'.mem a).data = (t.mem a).data
  color : ∀ a, (t'.mem a).color = (t.mem a).color
  outside : ∀ a, a ∉ s.toList → t'.mem a = t.mem a
  shape : ∃ c k k' b v e, s = plug c (branch d k b x (branch d k' v y e)) ∧
    ∃ s', s' = plug c (branch d k' (branch d k b x v) y e) ∧ WellLinked t' s' ∧ s'.toList = s.toList

/-- A rotation at a node with a child on the other side, and the way back. -/
theorem WellLinked.rotate (h : WellLinked t s) (hx : x ∈ s.toList) (hy : (t.mem x).child d.flip ≠ t.nil) :
    ∃ t', t.rotate d x = some t' ∧ Turned d s x ((t.mem x).child d.flip) t t' ∧
      t'.rotate d.flip ((t.mem x).child d.flip) = some t := by
  obtain ⟨g, hg⟩ : ∃ g : Ptr → Color, g = fun a => (t.mem a).color := ⟨_, rfl⟩
  obtain ⟨t₀, ht₀⟩ : ∃ t₀, t₀ = t.repaint (Function.update g t.nil .black) := ⟨_, rfl⟩
  have hown : t₀.repaint g = t := by rw [ht₀, repaint_repaint, hg, repaint_own]
  have hcolor : ∀ a ∈ s.toList, g a = (t₀.mem a).color := by
    intro a ha
    rw [ht₀, repaint_mem, Node.setColor_color, Function.update_of_ne (h.links.mem_ne ha).2]
  obtain ⟨c, k, l, r, hs⟩ := exists_plug_of_mem hx
  obtain ⟨b, w, hnode⟩ := node_eq_branch d k l x r
  rw [hnode] at hs
  have A : At t₀ c (branch d k b x w) := by
    have S := h.shape
    rw [← hg, ← ht₀, hs] at S
    exact at_plug.mpr S
  have hchild : (t.mem x).child d.flip = t.addr w := by
    have hlink := (linked_branch.mp A.focus).2.2.2.1
    rw [ht₀] at hlink
    exact hlink
  have hw : w ≠ .nil := by
    rintro rfl
    exact hy hchild
  obtain ⟨k', v, y, e, rfl⟩ : ∃ k' v y e, w = branch d k' v y e := by
    cases w with
    | nil => exact absurd rfl hw
    | node k' l y r =>
      obtain ⟨v, e, hbranch⟩ := node_eq_branch d k' l y r
      exact ⟨k', v, y, e, hbranch⟩
  rw [hchild, addr_branch]
  obtain ⟨t₁, hrot, R, hback⟩ := A.rotate_back
  have S' := at_plug.mp (R.shape A)
  have horder : (plug c (branch d k' (branch d k b x v) y e)).toList = s.toList := by
    rw [hs, toList_plug_congr (toList_rotate d b v e x y)]
  have hturn : t.rotate d x = some (t₁.repaint g) := by
    rw [← hown, rotate_repaint, hrot]
    rfl
  have hreturn : (t₁.repaint g).rotate d.flip y = some t := by
    rw [rotate_repaint, hback]
    exact congrArg some hown
  -- Outside the tree nothing is written, and its own colours are those of `g`.
  have hsame : ∀ a, (t₀.mem a).setColor (g a) = t.mem a := fun a => congrFun (congrArg RBTree.mem hown) a
  have houtside : ∀ a, a ∉ s.toList → (t₁.repaint g).mem a = t.mem a := by
    intro a ha
    rw [hs] at ha
    rw [repaint_mem, R.relinked.outside a ha, hsame]
  have hnil : t.nil ∉ s.toList := fun hmem => (h.links.mem_ne hmem).2 rfl
  have hnil₁ : t₁.nil = t.nil := R.nil.trans (by rw [ht₀]; rfl)
  have hlinks : WellLinked (t₁.repaint g) (plug c (branch d k' (branch d k b x v) y e)) := by
    refine ⟨S'.nil_ne, S'.context.trans (addr_eq repaint_nil _).symm, S'.focus.repaint fun a ha => ?_, S'.nodup⟩
    rw [R.color, hcolor a (horder ▸ ha)]
  refine ⟨t₁.repaint g, hturn, ⟨hnil₁, houtside _ hnil, fun a => ?_, fun a => ?_, fun a => ?_, houtside, ?_⟩, hreturn⟩
  · rw [repaint_mem, Node.setColor_key, R.key, ← hsame a, Node.setColor_key]
  · rw [repaint_mem, Node.setColor_data, R.data, ← hsame a, Node.setColor_data]
  · rw [repaint_mem, Node.setColor_color, hg]
  · exact ⟨c, k, k', b, v, e, hs, _, rfl, hlinks, horder⟩

/-- Rotating back after a rotation gives the tree from before, and in between its nodes are in the same order. -/
theorem rotations_inverse (h : WellLinked t s) (hx : x ∈ s.toList) :
    ((t.mem x).right ≠ t.nil → ∃ t', t.leftRotate x = some t' ∧ Turned .left s x (t.mem x).right t t' ∧
        t'.rightRotate (t.mem x).right = some t) ∧
      ((t.mem x).left ≠ t.nil → ∃ t', t.rightRotate x = some t' ∧ Turned .right s x (t.mem x).left t t' ∧
        t'.leftRotate (t.mem x).left = some t) :=
  ⟨fun hy => h.rotate (d := .left) hx hy, fun hy => h.rotate (d := .right) hx hy⟩

/-- Four nodes: 16 is the left child of 40, and has a right child with a left child. -/
def bentTree : RBTree where
  root := 40
  nil := 8
  mem a :=
    if a = 40 then ⟨16, 8, 8, 0, 9, .black⟩
    else if a = 16 then ⟨8, 24, 40, 0, 3, .red⟩
    else if a = 24 then ⟨32, 8, 16, 0, 7, .black⟩
    else if a = 32 then ⟨8, 8, 24, 0, 5, .red⟩
    else ⟨8, 8, 8, 0, 0, .black⟩

theorem bentTree_wellLinked : WellLinked bentTree
    (.node .black (.node .red .nil 16 (.node .black (.node .red .nil 32 .nil) 24 .nil)) 40 .nil) := by
  refine ⟨by decide, rfl, ?_, by decide⟩
  refine ⟨by decide, by decide, rfl, rfl, rfl, rfl, ?_, trivial⟩
  refine ⟨by decide, by decide, rfl, rfl, rfl, rfl, trivial, ?_⟩
  refine ⟨by decide, by decide, rfl, rfl, rfl, rfl, ?_, trivial⟩
  exact ⟨by decide, by decide, rfl, rfl, rfl, rfl, trivial, trivial⟩

theorem rotations_inverse_bent : ∃ t', bentTree.leftRotate 16 = some t' ∧ t'.rightRotate 24 = some bentTree := by
  obtain ⟨t', hturn, -, hreturn⟩ := (rotations_inverse (x := 16) bentTree_wellLinked (by decide)).1 (by decide)
  exact ⟨t', hturn, hreturn⟩

end QPHi.RBTree
