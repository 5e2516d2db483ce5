import Mathlib.Data.List.Induction
import Mathlib.Data.List.Nodup
import Mathlib.Logic.Function.Basic

/-! Linked lists in a memory of links: chains from a head to an end, rings that come back to their head, and
    rings with links in both directions. -/

namespace Chain
variable {α : Type}

/-- Following `next` from `a` visits the cells `l` and then arrives at `b`. -/
def Path (next : α → α) : α → List α → α → Prop
  | a, [], b => next a = b
  | a, x :: l, b => next a = x ∧ Path next x l b

/-- A ring: the chain from the head comes back to it. -/
def Ring (next : α → α) (a : α) (l : List α) : Prop := Path next a l a

variable {next next' : α → α} {a b x : α} {l l₁ l₂ : List α}

theorem path_append : Path next a (l₁ ++ x :: l₂) b ↔ Path next a l₁ x ∧ Path next x l₂ b := by
  induction l₁ generalizing a with
  | nil => exact Iff.rfl
  | cons y l₁ ih =>
    rw [List.cons_append, Path, Path, ih, and_assoc]

theorem Path.congr (h : Path next a l b) (heq : ∀ y ∈ a :: l, next' y = next y) : Path next' a l b := by
  induction l generalizing a with
  | nil => exact (heq a (by simp)).trans h
  | cons x l ih =>
    refine ⟨(heq a (by simp)).trans h.1, ih h.2 fun y hy => heq y (List.mem_cons_of_mem a hy)⟩

theorem Path.next_eq (h : Path next a l b) : next a = l.head?.getD b := by
  cases l with
  | nil => exact h
  | cons x l => exact h.1

theorem Path.next_mid (h : Path next a (l₁ ++ x :: l₂) b) : next x = l₂.head?.getD b := (path_append.mp h).2.next_eq

theorem Ring.next_eq (h : Ring next a l) : next a = l.head?.getD a := Path.next_eq h

/-- A ring is empty exactly when its head points to itself. -/
theorem Ring.next_eq_self_iff (h : Ring next a l) (ha : a ∉ l) : next a = a ↔ l = [] := by
  cases l with
  | nil => exact ⟨fun _ => rfl, fun _ => h⟩
  | cons x l =>
    have hx : next a = x := h.1
    refine ⟨fun e => ?_, fun e => by cases e⟩
    rw [hx] at e
    exact absurd (List.mem_cons_self) (e ▸ ha)

/-- No cell of a ring points to itself. -/
theorem Ring.next_ne_self (h : Ring next a l) (hnd : (a :: l).Nodup) (hx : x ∈ l) : next x ≠ x := by
  obtain ⟨l₁, l₂, rfl⟩ := List.append_of_mem hx
  rw [Path.next_mid h]
  simp only [List.nodup_cons, List.nodup_append', List.mem_append, List.mem_cons, not_or] at hnd
  cases l₂ with
  | nil => exact hnd.1.2.1
  | cons y l₂ =>
    intro e
    have hxy : x = y := e.symm
    exact hnd.2.2.1.1 (by simp [hxy])

/-- The links of a ring lead to its cells. -/
theorem Ring.next_mem (h : Ring next a l) (hx : x ∈ l) : next x ∈ a :: l := by
  obtain ⟨l₁, l₂, rfl⟩ := List.append_of_mem hx
  rw [Path.next_mid h]
  cases l₂ with
  | nil => simp
  | cons y l₂ => simp

/-- The cells of a ring are determined by its links. -/
theorem Path.unique (h : Path next a l₁ b) (h' : Path next a l₂ b) (hb₁ : b ∉ l₁) (hb₂ : b ∉ l₂) : l₁ = l₂ := by
  induction l₁ generalizing a l₂ with
  | nil =>
    cases l₂ with
    | nil => rfl
    | cons y l₂ =>
      have hy : next a = y := h'.1
      exact absurd (List.mem_cons.mpr (Or.inl (h.symm.trans hy))) hb₂
  | cons x l₁ ih =>
    cases l₂ with
    | nil =>
      have hx : next a = x := h.1
      exact absurd (List.mem_cons.mpr (Or.inl (Eq.trans (Eq.symm h') hx))) hb₁
    | cons y l₂ =>
      obtain ⟨hx, h⟩ := h
      obtain ⟨hy, h'⟩ := h'
      obtain rfl : x = y := hx.symm.trans hy
      rw [ih h h' (fun e => hb₁ (List.mem_cons_of_mem x e)) fun e => hb₂ (List.mem_cons_of_mem x e)]

/-- Two memories in which the same cells form a chain agree on their links. -/
theorem Path.agree (h : Path next a l b) (h' : Path next' a l b) : ∀ y ∈ a :: l, next' y = next y := by
  induction l generalizing a with
  | nil =>
    intro y hy
    rw [List.mem_singleton.mp hy]
    exact Eq.trans h' (Eq.symm h)
  | cons x l ih =>
    obtain ⟨hx, h⟩ := h
    obtain ⟨hx', h'⟩ := h'
    intro y hy
    rcases List.mem_cons.mp hy with rfl | hy
    · exact hx'.trans hx.symm
    · exact ih h h' y hy

section Update
variable [DecidableEq α] {v : α}

theorem Path.update_of_notMem (h : Path next a l b) (hx : x ∉ a :: l) : Path (Function.update next x v) a l b := by
  refine h.congr fun y hy => ?_
  have hne : y ≠ x := fun e => hx (e ▸ hy)
  exact Function.update_of_ne hne _ _

/-- Redirecting the last cell of a chain. -/
theorem Path.redirect_last (h : Path next a (l ++ [x]) b) (hx : x ∉ a :: l) (c : α) :
    Path (Function.update next x c) a (l ++ [x]) c := by
  obtain ⟨h, -⟩ := path_append.mp h
  refine path_append.mpr ⟨h.update_of_notMem hx, ?_⟩
  exact Function.update_self _ _ _

/-- The cell `x` is put in front: it takes over the link of the head. -/
theorem Ring.push (h : Ring next a l) (hxa : x ≠ a) (hxl : x ∉ l) (hal : a ∉ l) :
    Ring (Function.update (Function.update next x (next a)) a x) a (x :: l) := by
  have hx : Function.update (Function.update next x (next a)) a x x = next a := by
    rw [Function.update_of_ne hxa, Function.update_self]
  refine ⟨Function.update_self _ _ _, ?_⟩
  cases l with
  | nil => exact hx.trans h
  | cons y l =>
    obtain ⟨hy, h⟩ := h
    refine ⟨hx.trans hy, Path.update_of_notMem (Path.update_of_notMem h hxl) hal⟩

/-- The first cell is taken out: the head takes over its link. -/
theorem Ring.pop (h : Ring next a (x :: l)) (hal : a ∉ x :: l) :
    Ring (Function.update next a (next (next a))) a l := by
  obtain ⟨hx, h⟩ := h
  have ha : Function.update next a (next (next a)) a = next x := by rw [Function.update_self, hx]
  cases l with
  | nil => exact ha.trans h
  | cons y l =>
    obtain ⟨hy, h⟩ := h
    exact ⟨ha.trans hy, Path.update_of_notMem h fun e => hal (List.mem_cons_of_mem x e)⟩

theorem Path.remove_first (h : Path next a (x :: l) b) (hal : a ∉ l) : Path (Function.update next a (next x)) a l b := by
  obtain ⟨-, h⟩ := h
  have ha : Function.update next a (next x) a = next x := Function.update_self _ _ _
  cases l with
  | nil => exact ha.trans h
  | cons y l =>
    obtain ⟨hy, h⟩ := h
    exact ⟨ha.trans hy, h.update_of_notMem hal⟩

/-- A cell is taken out of a chain: the cell before it takes over its link. -/
theorem Path.remove (h : Path next a (l₁ ++ x :: l₂) b) (hnd : (a :: (l₁ ++ x :: l₂)).Nodup) :
    Path (Function.update next (l₁.getLast?.getD a) (next x)) a (l₁ ++ l₂) b := by
  induction l₁ using List.reverseRecOn with
  | nil =>
    simp only [List.nil_append, List.nodup_cons, List.mem_cons, not_or] at hnd
    exact h.remove_first hnd.1.2
  | append_singleton r y _ =>
    rw [List.append_assoc, List.singleton_append] at h hnd ⊢
    obtain ⟨h₁, h₂⟩ := path_append.mp h
    simp only [List.getLast?_append, List.getLast?_singleton, Option.some_or, Option.getD_some]
    have hy : y ∉ a :: r ∧ y ∉ l₂ := by
      simp only [List.nodup_cons, List.nodup_append', List.mem_append, List.mem_cons, not_or, List.disjoint_cons_right] at hnd
      exact ⟨by simp only [List.mem_cons, not_or]; exact ⟨fun e => hnd.1.2.1 e.symm, hnd.2.2.2.1⟩, hnd.2.2.1.1.2⟩
    exact path_append.mpr ⟨h₁.update_of_notMem hy.1, h₂.remove_first hy.2⟩

end Update

/-! ### Rings with links in both directions -/

/-- `next` runs through `l` and `prev` through `l` backwards. -/
structure DRing (next prev : α → α) (a : α) (l : List α) : Prop where
  forth : Ring next a l
  back : Ring prev a l.reverse

variable {prev prev' : α → α}

theorem DRing.congr (h : DRing next prev a l) (hn : ∀ y ∈ a :: l, next' y = next y)
    (hp : ∀ y ∈ a :: l, prev' y = prev y) : DRing next' prev' a l where
  forth := Path.congr h.forth hn
  back := Path.congr h.back fun y hy => hp y (by simpa using hy)

theorem DRing.next_eq (h : DRing next prev a l) : next a = l.head?.getD a := h.forth.next_eq

theorem DRing.prev_eq_self_iff (h : DRing next prev a l) (ha : a ∉ l) : prev a = a ↔ l = [] := by
  rw [h.back.next_eq_self_iff (by simpa using ha), List.reverse_eq_nil_iff]

section Update
variable [DecidableEq α]

/-- The cell `x` is put between the head and the first cell. -/
theorem DRing.push (h : DRing next prev a l) (hxa : x ≠ a) (hxl : x ∉ l) (hal : a ∉ l) (hl : l.Nodup) :
    DRing (Function.update (Function.update next x (next a)) a x)
      (Function.update (Function.update prev (next a) x) x a) a (x :: l) where
  forth := h.forth.push hxa hxl hal
  back := by
    rw [List.reverse_cons]
    cases l with
    | nil =>
      have hn : next a = a := h.forth
      rw [hn]
      refine ⟨?_, Function.update_self _ _ _⟩
      rw [Function.update_of_ne hxa.symm, Function.update_self]
    | cons y l =>
      have hn : next a = y := h.forth.1
      have hback : Ring prev a (l.reverse ++ [y]) := by
        have := h.back
        rwa [List.reverse_cons] at this
      rw [List.nodup_cons] at hl
      rw [hn, List.reverse_cons]
      refine path_append.mpr ⟨?_, Function.update_self _ _ _⟩
      refine Path.update_of_notMem (Path.redirect_last hback ?_ x) ?_
      · rw [List.mem_cons, List.mem_reverse, not_or]
        exact ⟨fun e => hal (by simp [e]), hl.1⟩
      · simp only [List.mem_cons, List.mem_append, List.mem_reverse, not_or]
        simp only [List.mem_cons, not_or] at hxl
        exact ⟨hxa, hxl.2, hxl.1, by simp⟩

/-- The cell `x` is taken out: its two neighbours are linked to each other. -/
theorem DRing.remove (h : DRing next prev a (l₁ ++ x :: l₂)) (hnd : (a :: (l₁ ++ x :: l₂)).Nodup) :
    DRing (Function.update next (prev x) (next x)) (Function.update prev (next x) (prev x)) a (l₁ ++ l₂) := by
  have hback : Ring prev a (l₂.reverse ++ x :: l₁.reverse) := by
    have := h.back
    rwa [List.reverse_append, List.reverse_cons, List.append_assoc, List.singleton_append] at this
  have hprev : prev x = l₁.getLast?.getD a := by rw [Path.next_mid hback, List.head?_reverse]
  have hnext : next x = l₂.reverse.getLast?.getD a := by rw [Path.next_mid h.forth, List.getLast?_reverse]
  refine ⟨?_, ?_⟩
  · rw [hprev]
    exact Path.remove h.forth hnd
  · rw [hnext, List.reverse_append]
    refine Path.remove hback ?_
    have hperm : (a :: (l₂.reverse ++ x :: l₁.reverse)).Perm (a :: (l₁ ++ x :: l₂)) := by
      refine List.Perm.cons a ?_
      have : l₂.reverse ++ x :: l₁.reverse = (l₁ ++ x :: l₂).reverse := by simp
      rw [this]
      exact List.reverse_perm _
    exact hperm.nodup_iff.mpr hnd

end Update

theorem DRing.agree (h : DRing next prev a l) (h' : DRing next' prev' a l) :
    ∀ y ∈ a :: l, next' y = next y ∧ prev' y = prev y := by
  intro y hy
  have hy' : y ∈ a :: l.reverse := by simpa using hy
  exact ⟨Path.agree h.forth h'.forth y hy, Path.agree h.back h'.back y hy'⟩

theorem DRing.symm (h : DRing next prev a l) : DRing prev next a l.reverse :=
  ⟨h.back, by rw [List.reverse_reverse]; exact h.forth⟩

theorem DRing.last_eq (h : DRing next prev a l) : prev a = l.getLast?.getD a := by
  rw [h.back.next_eq, List.head?_reverse]

/-! ### Chains with links in both directions -/

/-- `next` leads from `a` through `l` to `b`, and `prev` leads the same way back. -/
def DPath (next prev : α → α) : α → List α → α → Prop
  | a, [], b => next a = b ∧ prev b = a
  | a, x :: l, b => next a = x ∧ prev x = a ∧ DPath next prev x l b

theorem dpath_iff : DPath next prev a l b ↔ Path next a l b ∧ Path prev b l.reverse a := by
  induction l generalizing a with
  | nil => exact Iff.rfl
  | cons x l ih =>
    have hback : Path prev b (l.reverse ++ [x]) a ↔ Path prev b l.reverse x ∧ prev x = a := path_append
    rw [List.reverse_cons, hback, DPath, Path, ih]
    tauto

theorem dring_iff : DRing next prev a l ↔ DPath next prev a l a := by
  rw [dpath_iff]
  exact ⟨fun h => ⟨h.forth, h.back⟩, fun h => ⟨h.1, h.2⟩⟩

theorem dpath_append : DPath next prev a (l₁ ++ x :: l₂) b ↔ DPath next prev a l₁ x ∧ DPath next prev x l₂ b := by
  induction l₁ generalizing a with
  | nil => exact and_assoc.symm
  | cons y l₁ ih => rw [List.cons_append, DPath, DPath, ih, and_assoc, and_assoc]

theorem DPath.congr (h : DPath next prev a l b) (hn : ∀ y ∈ a :: l, next' y = next y)
    (hp : ∀ y ∈ b :: l, prev' y = prev y) : DPath next' prev' a l b := by
  obtain ⟨hforth, hback⟩ := dpath_iff.mp h
  exact dpath_iff.mpr ⟨hforth.congr hn, hback.congr fun y hy => hp y (by simpa using hy)⟩

/-- The last cell before the end. -/
def lastCell (a : α) (l : List α) : α := l.getLast?.getD a

theorem lastCell_cons (a x : α) (l : List α) : lastCell a (x :: l) = lastCell x l := by
  rw [lastCell, List.getLast?_cons, Option.getD_some]
  rfl

theorem lastCell_mem (a : α) (l : List α) : lastCell a l ∈ a :: l := by
  rw [lastCell]
  cases h : l.getLast? with
  | none => exact List.mem_cons_self
  | some z => exact List.mem_cons_of_mem a (List.mem_of_getLast? h)

theorem DPath.prev_end (h : DPath next prev a l b) : prev b = lastCell a l := by
  rw [(dpath_iff.mp h).2.next_eq, List.head?_reverse]
  rfl

/-- The chain is made to end at `c`: only the links between its last cell and the end are new. -/
theorem DPath.retarget {c : α} (h : DPath next prev a l b) (hnd : (a :: l).Nodup)
    (hn : ∀ y ∈ a :: l, y ≠ lastCell a l → next' y = next y) (hp : ∀ y ∈ l, prev' y = prev y)
    (hlast : next' (lastCell a l) = c) (hend : prev' c = lastCell a l) : DPath next' prev' a l c := by
  induction l generalizing a with
  | nil => exact ⟨hlast, hend⟩
  | cons x l ih =>
    obtain ⟨hx, hxa, h⟩ := h
    obtain ⟨ha, hnd'⟩ := List.nodup_cons.mp hnd
    rw [lastCell_cons] at hn hlast hend
    have hne : a ≠ lastCell x l := fun heq => ha (heq ▸ lastCell_mem x l)
    refine ⟨(hn a List.mem_cons_self hne).trans hx, (hp x List.mem_cons_self).trans hxa, ?_⟩
    exact ih h hnd' (fun y hy => hn y (List.mem_cons_of_mem a hy)) (fun y hy => hp y (List.mem_cons_of_mem x hy)) hlast hend

section Update
variable [DecidableEq α] {c : α}

/-- A ring is cut before the cell `x`: the cells from `x` on go to the head `c`. -/
theorem DRing.split (h : DRing next prev a (l₁ ++ x :: l₂)) (hnd : (a :: (l₁ ++ x :: l₂)).Nodup)
    (hc : c ∉ a :: (l₁ ++ x :: l₂)) (hnext : next' = Function.update (Function.update (Function.update next (prev a) c) c x) (prev x) a)
    (hprev : prev' = Function.update (Function.update (Function.update prev c (prev a)) a (prev x)) x c) :
    DRing next' prev' a l₁ ∧ DRing next' prev' c (x :: l₂) := by
  obtain ⟨h₁, h₂⟩ := dpath_append.mp (dring_iff.mp h)
  have hw : prev x = lastCell a l₁ := h₁.prev_end
  have hz : prev a = lastCell x l₂ := h₂.prev_end
  have hwmem := lastCell_mem a l₁
  have hzmem := lastCell_mem x l₂
  rw [hw, hz] at hnext hprev
  rw [← List.cons_append] at hnd hc
  obtain ⟨hnd₁, hnd₂, hap⟩ := List.nodup_append.mp hnd
  obtain ⟨hc₁, hc₂⟩ := not_or.mp (List.mem_append.not.mp hc)
  have hwc : lastCell a l₁ ≠ c := fun heq => hc₁ (heq ▸ hwmem)
  have hzc : lastCell x l₂ ≠ c := fun heq => hc₂ (heq ▸ hzmem)
  have hzw : lastCell x l₂ ≠ lastCell a l₁ := fun heq => hap _ hwmem _ hzmem heq.symm
  have hax : a ≠ x := hap a List.mem_cons_self x List.mem_cons_self
  have hcx : c ≠ x := fun heq => hc₂ (heq ▸ List.mem_cons_self)
  have hca : c ≠ a := fun heq => hc₁ (heq ▸ List.mem_cons_self)
  refine ⟨dring_iff.mpr (h₁.retarget hnd₁ (fun y hy hyw => ?_) (fun y hy => ?_) ?_ ?_), dring_iff.mpr ⟨?_, ?_, ?_⟩⟩
  · have hyc : y ≠ c := fun heq => hc₁ (heq ▸ hy)
    have hyz : y ≠ lastCell x l₂ := hap y hy _ hzmem
    rw [hnext, Function.update_of_ne hyw, Function.update_of_ne hyc, Function.update_of_ne hyz]
  · have hmem : y ∈ a :: l₁ := List.mem_cons_of_mem a hy
    have hyx : y ≠ x := hap y hmem x List.mem_cons_self
    have hya : y ≠ a := fun heq => (List.nodup_cons.mp hnd₁).1 (heq ▸ hy)
    have hyc : y ≠ c := fun heq => hc₁ (heq ▸ hmem)
    rw [hprev, Function.update_of_ne hyx, Function.update_of_ne hya, Function.update_of_ne hyc]
  · rw [hnext, Function.update_self]
  · rw [hprev, Function.update_of_ne hax, Function.update_self]
  · rw [hnext, Function.update_of_ne (Ne.symm hwc), Function.update_self]
  · rw [hprev, Function.update_self]
  · refine h₂.retarget hnd₂ (fun y hy hyz => ?_) (fun y hy => ?_) ?_ ?_
    · have hyw : y ≠ lastCell a l₁ := fun heq => hap _ hwmem y hy heq.symm
      have hyc : y ≠ c := fun heq => hc₂ (heq ▸ hy)
      rw [hnext, Function.update_of_ne hyw, Function.update_of_ne hyc, Function.update_of_ne hyz]
    · have hmem : y ∈ x :: l₂ := List.mem_cons_of_mem x hy
      have hyx : y ≠ x := fun heq => (List.nodup_cons.mp hnd₂).1 (heq ▸ hy)
      have hya : y ≠ a := fun heq => hap a List.mem_cons_self y hmem heq.symm
      have hyc : y ≠ c := fun heq => hc₂ (heq ▸ hmem)
      rw [hprev, Function.update_of_ne hyx, Function.update_of_ne hya, Function.update_of_ne hyc]
    · rw [hnext, Function.update_of_ne hzw, Function.update_of_ne hzc, Function.update_self]
    · rw [hprev, Function.update_of_ne hcx, Function.update_of_ne hca, Function.update_self]

/-- The cells of the ring at `c` are put behind those of the ring at `a`. -/
theorem DRing.merge (h : DRing next prev a l₁) (h' : DRing next prev c l₂) (hnd : (a :: l₁).Nodup) (hnd' : (c :: l₂).Nodup)
    (hap : ∀ y ∈ a :: l₁, y ∉ c :: l₂) {back : α → α} (hback : back = Function.update prev (next c) (prev a))
    (hnext : next' = Function.update (Function.update next (prev a) (next c)) (back c) a)
    (hprev : prev' = Function.update back a (back c)) : DRing next' prev' a (l₁ ++ l₂) := by
  have hz : prev a = lastCell a l₁ := (dring_iff.mp h).prev_end
  have hzmem := lastCell_mem a l₁
  have hac : a ≠ c := fun heq => hap a List.mem_cons_self (heq ▸ List.mem_cons_self)
  cases l₂ with
  | nil =>
    have hself : next c = c := h'.forth
    rw [hself, hz] at hback hnext
    have hbackc : back c = lastCell a l₁ := by rw [hback, Function.update_self]
    rw [hbackc] at hnext hprev
    rw [List.append_nil]
    refine dring_iff.mpr ((dring_iff.mp h).retarget hnd (fun y _ hyz => ?_) (fun y hy => ?_) ?_ ?_)
    · rw [hnext, Function.update_of_ne hyz, Function.update_of_ne hyz]
    · have hya : y ≠ a := fun heq => (List.nodup_cons.mp hnd).1 (heq ▸ hy)
      have hyc : y ≠ c := fun heq => hap y (List.mem_cons_of_mem a hy) (heq ▸ List.mem_cons_self)
      rw [hprev, Function.update_of_ne hya, hback, Function.update_of_ne hyc]
    · rw [hnext, Function.update_self]
    · rw [hprev, Function.update_self]
  | cons x t =>
    obtain ⟨hx, -, ht⟩ := dring_iff.mp h'
    have hz' : prev c = lastCell x t := ht.prev_end
    have hz'mem := lastCell_mem x t
    obtain ⟨hct, hndt⟩ := List.nodup_cons.mp hnd'
    have hcx : c ≠ x := fun heq => hct (heq ▸ List.mem_cons_self)
    have hin : ∀ y ∈ a :: l₁, y ∉ x :: t := fun y hy hmem => hap y hy (List.mem_cons_of_mem c hmem)
    rw [hx, hz] at hback hnext
    have hbackc : back c = lastCell x t := by rw [hback, Function.update_of_ne hcx, hz']
    rw [hbackc] at hnext hprev
    have hzz' : lastCell a l₁ ≠ lastCell x t := fun heq => hin _ hzmem (heq ▸ hz'mem)
    have hxa : x ≠ a := fun heq => hin a List.mem_cons_self (heq ▸ List.mem_cons_self)
    refine dring_iff.mpr (dpath_append.mpr ⟨(dring_iff.mp h).retarget hnd (fun y hy hyz => ?_) (fun y hy => ?_) ?_ ?_,
      ht.retarget hndt (fun y hy hyz => ?_) (fun y hy => ?_) ?_ ?_⟩)
    · have hyz' : y ≠ lastCell x t := fun heq => hin y hy (heq ▸ hz'mem)
      rw [hnext, Function.update_of_ne hyz', Function.update_of_ne hyz]
    · have hya : y ≠ a := fun heq => (List.nodup_cons.mp hnd).1 (heq ▸ hy)
      have hyx : y ≠ x := fun heq => hin y (List.mem_cons_of_mem a hy) (heq ▸ List.mem_cons_self)
      rw [hprev, Function.update_of_ne hya, hback, Function.update_of_ne hyx]
    · rw [hnext, Function.update_of_ne hzz', Function.update_self]
    · rw [hprev, Function.update_of_ne hxa, hback, Function.update_self]
    · have hyz₁ : y ≠ lastCell a l₁ := fun heq => hin _ hzmem (heq ▸ hy)
      rw [hnext, Function.update_of_ne hyz, Function.update_of_ne hyz₁]
    · have hmem : y ∈ x :: t := List.mem_cons_of_mem x hy
      have hya : y ≠ a := fun heq => hin a List.mem_cons_self (heq ▸ hmem)
      have hyx : y ≠ x := fun heq => (List.nodup_cons.mp hndt).1 (heq ▸ hy)
      rw [hprev, Function.update_of_ne hya, hback, Function.update_of_ne hyx]
    · rw [hnext, Function.update_self]
    · rw [hprev, Function.update_self]

end Update

end Chain
