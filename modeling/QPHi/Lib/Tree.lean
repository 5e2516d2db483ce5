import Mathlib.Algebra.Group.Nat.Defs
import Mathlib.Data.List.Nodup
import Mathlib.Data.List.Perm.Basic

/-! Binary trees with coloured nodes, their one-hole contexts, and the red-black balance of both. -/

namespace BinTree

/-- The two sides of a node. -/
inductive Side where
  | left
  | right
deriving DecidableEq, Repr

namespace Side

def flip : Side → Side
  | left => right
  | right => left

@[simp] theorem flip_left : left.flip = right := rfl
@[simp] theorem flip_right : right.flip = left := rfl
@[simp] theorem flip_flip (d : Side) : d.flip.flip = d := by cases d <;> rfl
@[simp] theorem flip_ne (d : Side) : d.flip ≠ d := by cases d <;> simp

theorem eq_or_eq_flip (d e : Side) : d = e ∨ d = e.flip := by cases d <;> cases e <;> simp

end Side

inductive Color where
  | red
  | black
deriving DecidableEq, Repr

theorem Color.eq_red_of_ne {c : Color} (h : c ≠ .black) : c = .red := by cases c <;> simp_all
theorem Color.eq_black_of_ne {c : Color} (h : c ≠ .red) : c = .black := by cases c <;> simp_all

end BinTree

open BinTree in
inductive BinTree (α : Type) where
  | nil
  | node (c : Color) (l : BinTree α) (a : α) (r : BinTree α)
deriving Repr

namespace BinTree
variable {α : Type}

/-- A node with `near` on side `d` and `far` on the other side. -/
def branch (d : Side) (c : Color) (near : BinTree α) (a : α) (far : BinTree α) : BinTree α :=
  match d with
  | .left => node c near a far
  | .right => node c far a near

theorem branch_flip (d : Side) (c : Color) (s : BinTree α) (a : α) (t : BinTree α) :
    branch d.flip c s a t = branch d c t a s := by cases d <;> rfl

theorem node_eq_branch (d : Side) (c : Color) (l : BinTree α) (a : α) (r : BinTree α) :
    ∃ near far, node c l a r = branch d c near a far := by
  cases d
  · exact ⟨l, r, rfl⟩
  · exact ⟨r, l, rfl⟩

/-- Induction with the subtree on side `d` named first. -/
theorem branch_induction (d : Side) {P : BinTree α → Prop} (nil : P nil)
    (node : ∀ c near a far, P near → P far → P (branch d c near a far)) : ∀ t, P t := by
  intro t
  induction t with
  | nil => exact nil
  | node c l a r ihl ihr =>
    cases d with
    | left => exact node c l a r ihl ihr
    | right => exact node c r a l ihr ihl

/-- The labels from left to right. -/
def toList : BinTree α → List α
  | nil => []
  | node _ l a r => l.toList ++ a :: r.toList

@[simp] theorem toList_nil : (nil : BinTree α).toList = [] := rfl
@[simp] theorem toList_node {c : Color} {l r : BinTree α} {a : α} :
    (node c l a r).toList = l.toList ++ a :: r.toList := rfl

theorem toList_branch_color (d : Side) (c c' : Color) (s t : BinTree α) (a : α) :
    (branch d c s a t).toList = (branch d c' s a t).toList := by cases d <;> rfl

theorem toList_branch_perm (d : Side) (c : Color) (s t : BinTree α) (a : α) :
    (branch d c s a t).toList.Perm (a :: (s.toList ++ t.toList)) := by
  cases d
  · exact List.perm_middle
  · exact List.perm_middle.trans (List.perm_append_comm.cons a)

@[simp] theorem mem_toList_branch {d : Side} {c : Color} {s t : BinTree α} {a x : α} :
    x ∈ (branch d c s a t).toList ↔ x = a ∨ x ∈ s.toList ∨ x ∈ t.toList := by
  rw [(toList_branch_perm d c s t a).mem_iff]
  simp

@[simp] theorem nodup_toList_branch {d : Side} {c : Color} {s t : BinTree α} {a : α} :
    (branch d c s a t).toList.Nodup ↔
      a ∉ s.toList ∧ a ∉ t.toList ∧ s.toList.Nodup ∧ t.toList.Nodup ∧ s.toList.Disjoint t.toList := by
  rw [(toList_branch_perm d c s t a).nodup_iff, List.nodup_cons, List.mem_append, not_or, List.nodup_append']
  tauto

/-- A rotation keeps the order of the labels. -/
theorem toList_rotate (d : Side) {c c' k k' : Color} (s t u : BinTree α) (a b : α) :
    (branch d c s a (branch d c' t b u)).toList = (branch d k (branch d k' s a t) b u).toList := by
  cases d <;> simp [branch]

/-! ### Contexts -/

/-- A node whose subtree on `side` is missing. -/
structure Frame (α : Type) where
  side : Side
  color : Color
  label : α
  sib : BinTree α

def Frame.fill (f : Frame α) (s : BinTree α) : BinTree α := branch f.side f.color s f.label f.sib

/-- A context from the hole outwards. -/
abbrev Context (α : Type) := List (Frame α)

def plug : Context α → BinTree α → BinTree α
  | [], s => s
  | f :: c, s => plug c (f.fill s)

@[simp] theorem plug_nil (s : BinTree α) : plug [] s = s := rfl
theorem plug_cons (f : Frame α) (c : Context α) (s : BinTree α) : plug (f :: c) s = plug c (f.fill s) := rfl

theorem plug_append (c c' : Context α) (s : BinTree α) : plug (c ++ c') s = plug c' (plug c s) := by
  induction c generalizing s with
  | nil => rfl
  | cons f c ih => exact ih (f.fill s)

/-- The labels left of the hole. -/
def before : Context α → List α
  | [] => []
  | ⟨.left, _, _, _⟩ :: c => before c
  | ⟨.right, _, a, t⟩ :: c => before c ++ t.toList ++ [a]

/-- The labels right of the hole. -/
def after : Context α → List α
  | [] => []
  | ⟨.left, _, a, t⟩ :: c => a :: t.toList ++ after c
  | ⟨.right, _, _, _⟩ :: c => after c

theorem toList_plug (c : Context α) (s : BinTree α) :
    (plug c s).toList = before c ++ s.toList ++ after c := by
  induction c generalizing s with
  | nil => simp [before, after]
  | cons f c ih =>
    obtain ⟨d, k, a, t⟩ := f
    rw [plug_cons, ih]
    cases d <;> simp [Frame.fill, branch, before, after]

theorem toList_plug_congr {c : Context α} {s t : BinTree α} (h : s.toList = t.toList) :
    (plug c s).toList = (plug c t).toList := by
  rw [toList_plug, toList_plug, h]

/-- The labels of a context, in no particular order. -/
def labels : Context α → List α
  | [] => []
  | f :: c => f.label :: (f.sib.toList ++ labels c)

theorem toList_plug_perm (c : Context α) (s : BinTree α) : (plug c s).toList.Perm (s.toList ++ labels c) := by
  induction c generalizing s with
  | nil => simp [labels]
  | cons f c ih =>
    refine (ih (f.fill s)).trans ?_
    refine ((toList_branch_perm f.side f.color s f.sib f.label).append_right (labels c)).trans ?_
    rw [labels, List.cons_append, List.append_assoc]
    exact List.perm_middle.symm

theorem mem_toList_plug {c : Context α} {s : BinTree α} {x : α} :
    x ∈ (plug c s).toList ↔ x ∈ s.toList ∨ x ∈ labels c := by
  rw [(toList_plug_perm c s).mem_iff, List.mem_append]

theorem nodup_toList_plug {c : Context α} {s : BinTree α} :
    (plug c s).toList.Nodup ↔ s.toList.Nodup ∧ (labels c).Nodup ∧ s.toList.Disjoint (labels c) := by
  rw [(toList_plug_perm c s).nodup_iff, List.nodup_append']

/-- Every label of a tree is the root of a subtree in some context. -/
theorem exists_plug_of_mem {x : α} : ∀ {t : BinTree α}, x ∈ t.toList →
    ∃ c k l r, t = plug c (node k l x r) := by
  intro t h
  induction t with
  | nil => simp at h
  | node k l a r ihl ihr =>
    rw [toList_node, List.mem_append, List.mem_cons] at h
    rcases h with h | rfl | h
    · obtain ⟨c, k', l', r', rfl⟩ := ihl h
      exact ⟨c ++ [⟨.left, k, a, r⟩], k', l', r', by rw [plug_append]; rfl⟩
    · exact ⟨[], k, l, r, rfl⟩
    · obtain ⟨c, k', l', r', rfl⟩ := ihr h
      exact ⟨c ++ [⟨.right, k, a, l⟩], k', l', r', by rw [plug_append]; rfl⟩

/-- A context that goes down on side `d` only. -/
def Spine (d : Side) (c : Context α) : Prop := ∀ f ∈ c, f.side = d

theorem Spine.before_nil {c : Context α} (h : Spine .left c) : before c = [] := by
  induction c with
  | nil => rfl
  | cons f c ih =>
    obtain ⟨d, k, a, t⟩ := f
    obtain rfl : d = .left := h ⟨d, k, a, t⟩ (by simp)
    exact ih fun f hf => h f (by simp [hf])

theorem Spine.after_nil {c : Context α} (h : Spine .right c) : after c = [] := by
  induction c with
  | nil => rfl
  | cons f c ih =>
    obtain ⟨d, k, a, t⟩ := f
    obtain rfl : d = .right := h ⟨d, k, a, t⟩ (by simp)
    exact ih fun f hf => h f (by simp [hf])

theorem before_append (c c' : Context α) : before (c ++ c') = before c' ++ before c := by
  induction c with
  | nil => simp [before]
  | cons f c ih =>
    obtain ⟨d, k, a, t⟩ := f
    cases d <;> simp [before, ih]

/-! ### Red-black balance -/

/-- The colour of the root; leaves are black. -/
def color : BinTree α → Color
  | nil => .black
  | node c _ _ _ => c

@[simp] theorem color_nil : (nil : BinTree α).color = .black := rfl
@[simp] theorem color_node {c : Color} {l r : BinTree α} {a : α} : (node c l a r).color = c := rfl
@[simp] theorem color_branch {d : Side} {c : Color} {s t : BinTree α} {a : α} : (branch d c s a t).color = c := by
  cases d <;> rfl

/-- The tree with its root painted black. -/
def blacken : BinTree α → BinTree α
  | nil => nil
  | node _ l a r => node .black l a r

@[simp] theorem color_blacken (t : BinTree α) : t.blacken.color = .black := by cases t <;> rfl
@[simp] theorem toList_blacken (t : BinTree α) : t.blacken.toList = t.toList := by cases t <;> rfl
@[simp] theorem blacken_branch {d : Side} {c : Color} {s t : BinTree α} {a : α} :
    (branch d c s a t).blacken = branch d .black s a t := by cases d <;> rfl

theorem blacken_of_black {t : BinTree α} (h : t.color = .black) : t.blacken = t := by
  cases t with
  | nil => rfl
  | node c l a r => rw [color_node] at h; rw [h]; rfl

/-- A red-black tree of black height `n`, with a root of either colour: a red node has black children and
    both subtrees of a node have the same black height. -/
def Balanced : BinTree α → Nat → Prop
  | nil, n => n = 0
  | node .black l _ r, n => ∃ m, n = m + 1 ∧ l.Balanced m ∧ r.Balanced m
  | node .red l _ r, n => l.color = .black ∧ r.color = .black ∧ l.Balanced n ∧ r.Balanced n

@[simp] theorem balanced_nil {n : Nat} : (nil : BinTree α).Balanced n ↔ n = 0 := Iff.rfl

@[simp] theorem balanced_black {d : Side} {s t : BinTree α} {a : α} {n : Nat} :
    (branch d .black s a t).Balanced (n + 1) ↔ s.Balanced n ∧ t.Balanced n := by
  cases d <;> simp [branch, Balanced, and_comm]

theorem balanced_black_iff {d : Side} {s t : BinTree α} {a : α} {n : Nat} :
    (branch d .black s a t).Balanced n ↔ ∃ m, n = m + 1 ∧ s.Balanced m ∧ t.Balanced m := by
  cases d <;> simp [branch, Balanced, and_comm]

@[simp] theorem balanced_red {d : Side} {s t : BinTree α} {a : α} {n : Nat} :
    (branch d .red s a t).Balanced n ↔ s.color = .black ∧ t.color = .black ∧ s.Balanced n ∧ t.Balanced n := by
  cases d
  · exact Iff.rfl
  · simp only [branch, Balanced]
    tauto

/-- A tree that is red, or is higher than a leaf, has a root. -/
theorem exists_branch_of_red (d : Side) {t : BinTree α} (h : t.color = .red) :
    ∃ s a u, t = branch d .red s a u := by
  cases t with
  | nil => cases h
  | node c l a r =>
    rw [color_node] at h
    subst h
    obtain ⟨s, u, h⟩ := node_eq_branch d .red l a r
    exact ⟨s, a, u, h⟩

theorem exists_branch_of_balanced_succ (d : Side) {t : BinTree α} {n : Nat} (h : t.Balanced (n + 1)) :
    ∃ c s a u, t = branch d c s a u := by
  cases t with
  | nil => cases h
  | node c l a r =>
    obtain ⟨s, u, h⟩ := node_eq_branch d c l a r
    exact ⟨c, s, a, u, h⟩

theorem Balanced.blacken {t : BinTree α} {n : Nat} (h : t.Balanced n) : ∃ m, t.blacken.Balanced m := by
  cases t with
  | nil => exact ⟨n, h⟩
  | node c l a r =>
    cases c with
    | black => exact ⟨n, h⟩
    | red => exact ⟨n + 1, n, rfl, h.2.2.1, h.2.2.2⟩

theorem length_toList_pos {t : BinTree α} (h : t ≠ nil) : 0 < t.toList.length := by
  cases t with
  | nil => exact absurd rfl h
  | node c l a r =>
    rw [toList_node, List.length_append, List.length_cons]
    exact Nat.add_pos_right _ (Nat.succ_pos _)

theorem Balanced.length_le_one {t : BinTree α} (h : t.Balanced 0) : t.toList.length ≤ 1 := by
  have hleaf : ∀ s : BinTree α, s.color = .black → s.Balanced 0 → s = nil := by
    intro s hc hs
    cases s with
    | nil => rfl
    | node c l a r =>
      obtain rfl : c = .black := hc
      obtain ⟨m, hm, -⟩ := hs
      cases hm
  cases t with
  | nil => exact Nat.zero_le 1
  | node c l a r =>
    cases c with
    | black =>
      obtain ⟨m, hm, -⟩ := h
      cases hm
    | red =>
      obtain ⟨hl, hr, hbl, hbr⟩ := h
      rw [hleaf l hl hbl, hleaf r hr hbr]
      exact Nat.le_refl 1

/-- No red node has a red child. -/
def NoRedRed : BinTree α → Prop
  | nil => True
  | node c l _ r => (c = .red → l.color = .black ∧ r.color = .black) ∧ l.NoRedRed ∧ r.NoRedRed

/-- The colours along each path from the root to a leaf. -/
def paths : BinTree α → List (List Color)
  | nil => [[]]
  | node c l _ r => (l.paths ++ r.paths).map (c :: ·)

theorem Balanced.noRedRed {t : BinTree α} {n : Nat} (h : t.Balanced n) : t.NoRedRed := by
  induction t generalizing n with
  | nil => trivial
  | node c l a r ihl ihr =>
    cases c with
    | black =>
      obtain ⟨m, -, hl, hr⟩ := h
      exact ⟨by simp, ihl hl, ihr hr⟩
    | red => exact ⟨fun _ => ⟨h.1, h.2.1⟩, ihl h.2.2.1, ihr h.2.2.2⟩

theorem Balanced.count_black {t : BinTree α} {n : Nat} (h : t.Balanced n) :
    ∀ p ∈ t.paths, p.count .black = n := by
  induction t generalizing n with
  | nil => simpa [paths] using h.symm
  | node c l a r ihl ihr =>
    intro p hp
    obtain ⟨q, hq, rfl⟩ := List.mem_map.mp hp
    cases c with
    | black =>
      obtain ⟨m, rfl, hl, hr⟩ := h
      have hcount : q.count .black = m := (List.mem_append.mp hq).elim (ihl hl q) (ihr hr q)
      simp [hcount]
    | red =>
      have hcount : q.count .black = n := (List.mem_append.mp hq).elim (ihl h.2.2.1 q) (ihr h.2.2.2 q)
      simp [hcount]

/-- A red-black tree: balanced, with a black root. -/
def RedBlack (t : BinTree α) : Prop := t.color = .black ∧ ∃ n, t.Balanced n

theorem eq_node_of_toList {t : BinTree α} {a : α} (h : t.toList = [a]) : ∃ k, t = node k nil a nil := by
  cases t with
  | nil => cases h
  | node k l x r =>
    have hnil : ∀ {s : BinTree α}, s.toList = [] → s = nil := by
      intro s hs
      by_contra hne
      have hpos := length_toList_pos hne
      rw [hs] at hpos
      exact absurd hpos (Nat.lt_irrefl 0)
    rw [toList_node] at h
    rcases List.append_eq_singleton_iff.mp h with ⟨hl, hxr⟩ | ⟨-, hxr⟩
    · obtain ⟨rfl, hr⟩ := List.cons.inj hxr
      exact ⟨k, by rw [hnil hl, hnil hr]⟩
    · cases hxr

/-- Three nodes are a root with two children. -/
theorem RedBlack.root_of_three {t : BinTree α} {a b c : α} (h : t.RedBlack) (hls : t.toList = [a, b, c]) :
    ∃ kl kr, t = node .black (node kl nil a nil) b (node kr nil c nil) := by
  obtain ⟨hcolor, n, hbal⟩ := h
  cases t with
  | nil => cases hls
  | node k l x r =>
    obtain rfl : k = .black := hcolor
    obtain ⟨m, -, hbl, hbr⟩ := hbal
    rw [toList_node] at hls
    have hlen := congrArg List.length hls
    rw [List.length_append, List.length_cons] at hlen
    have hl : l ≠ nil := by
      rintro rfl
      obtain rfl : m = 0 := hbl
      have hle := hbr.length_le_one
      simp at hlen
      omega
    have hr : r ≠ nil := by
      rintro rfl
      obtain rfl : m = 0 := hbr
      have hle := hbl.length_le_one
      simp at hlen
      omega
    have hlpos := length_toList_pos hl
    have hrpos := length_toList_pos hr
    obtain ⟨y, hy⟩ := List.length_eq_one_iff.mp (show l.toList.length = 1 by simp at hlen; omega)
    rw [hy] at hls
    obtain ⟨rfl, hrest⟩ := List.cons.inj hls
    obtain ⟨rfl, hz⟩ := List.cons.inj hrest
    obtain ⟨kl, rfl⟩ := eq_node_of_toList hy
    obtain ⟨kr, rfl⟩ := eq_node_of_toList hz
    exact ⟨kl, kr, rfl⟩

/-! ### Height -/

/-- The number of nodes on the longest path from the root to a leaf. -/
def height : BinTree α → Nat
  | nil => 0
  | node _ l _ r => max l.height r.height + 1

theorem height_fill_le (f : Frame α) (s : BinTree α) : s.height ≤ (f.fill s).height := by
  obtain ⟨d, k, a, t⟩ := f
  cases d with
  | left => exact Nat.le_succ_of_le (Nat.le_max_left _ _)
  | right => exact Nat.le_succ_of_le (Nat.le_max_right _ _)

theorem height_le_plug (c : Context α) (s : BinTree α) : s.height ≤ (plug c s).height := by
  induction c generalizing s with
  | nil => exact Nat.le_refl _
  | cons f c ih => exact Nat.le_trans (height_fill_le f s) (ih (f.fill s))

/-- Every second node of a path is black, apart from a red root. -/
theorem Balanced.height_le {t : BinTree α} {n : Nat} (h : t.Balanced n) :
    t.height ≤ 2 * n + 1 ∧ (t.color = .black → t.height ≤ 2 * n) := by
  induction t generalizing n with
  | nil => exact ⟨Nat.zero_le _, fun _ => Nat.zero_le _⟩
  | node c l a r ihl ihr =>
    cases c with
    | black =>
      obtain ⟨m, rfl, hl, hr⟩ := h
      have hheight : max l.height r.height ≤ 2 * m + 1 := Nat.max_le.mpr ⟨(ihl hl).1, (ihr hr).1⟩
      have hle : (node .black l a r).height ≤ 2 * (m + 1) := Nat.succ_le_succ hheight
      exact ⟨Nat.le_succ_of_le hle, fun _ => hle⟩
    | red =>
      obtain ⟨hcl, hcr, hl, hr⟩ := h
      have hheight : max l.height r.height ≤ 2 * n := Nat.max_le.mpr ⟨(ihl hl).2 hcl, (ihr hr).2 hcr⟩
      exact ⟨Nat.succ_le_succ hheight, fun hblack => Color.noConfusion hblack⟩

/-- A tree of black height `n` has the nodes of a full tree of that height at least. -/
theorem Balanced.pow_le {t : BinTree α} {n : Nat} (h : t.Balanced n) : 2 ^ n ≤ t.toList.length + 1 := by
  induction t generalizing n with
  | nil =>
    obtain rfl : n = 0 := h
    exact Nat.le_refl 1
  | node c l a r ihl ihr =>
    rw [toList_node, List.length_append, List.length_cons]
    cases c with
    | black =>
      obtain ⟨m, rfl, hl, hr⟩ := h
      have hll := ihl hl
      have hlr := ihr hr
      rw [Nat.pow_succ]
      omega
    | red =>
      have hll := ihl h.2.2.1
      omega

theorem RedBlack.height_le {t : BinTree α} (h : t.RedBlack) : t.height ≤ 2 * Nat.log2 (t.toList.length + 1) := by
  obtain ⟨hcolor, n, hbal⟩ := h
  have hlog : n ≤ Nat.log2 (t.toList.length + 1) := (Nat.le_log2 (Nat.succ_ne_zero _)).mpr hbal.pow_le
  exact Nat.le_trans (hbal.height_le.2 hcolor) (Nat.mul_le_mul_left 2 hlog)

/-- The colour above the hole of a context. Outside the whole tree it counts as red, since the root of a
    red-black tree is black. -/
def above : Context α → Color
  | [] => .red
  | f :: _ => f.color

/-- The context makes a red-black tree of every tree of black height `n` that does not put two red nodes
    on top of each other. -/
def Expects : Context α → Nat → Prop
  | [], _ => True
  | ⟨_, .black, _, t⟩ :: c, n => t.Balanced n ∧ Expects c (n + 1)
  | ⟨_, .red, _, t⟩ :: c, n => t.Balanced n ∧ t.color = .black ∧ above c = .black ∧ Expects c n

/-- A context takes a black sibling of the same black height for another one. -/
theorem Expects.sib {c : Context α} {d : Side} {k : Color} {a : α} {t t' : BinTree α} {n : Nat}
    (h : Expects (⟨d, k, a, t⟩ :: c) n) (hbal : t'.Balanced n) (hblack : t'.color = .black) :
    Expects (⟨d, k, a, t'⟩ :: c) n := by
  cases k with
  | black => exact ⟨hbal, h.2⟩
  | red => exact ⟨hbal, hblack, h.2.2⟩

theorem redBlack_plug {c : Context α} {s : BinTree α} :
    (plug c s).RedBlack ↔ ∃ n, Expects c n ∧ s.Balanced n ∧ (above c = .black ∨ s.color = .black) := by
  induction c generalizing s with
  | nil =>
    constructor
    · rintro ⟨hc, n, hn⟩
      exact ⟨n, trivial, hn, Or.inr hc⟩
    · rintro ⟨n, -, hn, h | h⟩
      · cases h
      · exact ⟨h, n, hn⟩
  | cons f c ih =>
    obtain ⟨d, k, a, t⟩ := f
    rw [plug_cons, ih]
    cases k with
    | black =>
      simp only [Frame.fill, balanced_black_iff, color_branch, or_true, and_true, Expects, above, true_or]
      constructor
      · rintro ⟨-, hc, n, rfl, hs, ht⟩
        exact ⟨n, ⟨ht, hc⟩, hs⟩
      · rintro ⟨n, ⟨ht, hc⟩, hs⟩
        exact ⟨n + 1, hc, n, rfl, hs, ht⟩
    | red =>
      simp only [Frame.fill, balanced_red, color_branch, reduceCtorEq, or_false, Expects, above, false_or]
      constructor
      · rintro ⟨n, hc, ⟨hs, ht, hbs, hbt⟩, habove⟩
        exact ⟨n, ⟨hbt, ht, habove, hc⟩, hbs, hs⟩
      · rintro ⟨n, ⟨hbt, ht, habove, hc⟩, hbs, hs⟩
        exact ⟨n, hc, ⟨hs, ht, hbs, hbt⟩, habove⟩

end BinTree
