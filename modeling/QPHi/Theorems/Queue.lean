import QPHi.Heap
import QPHi.Lib.Chain

/-! The circular queues of `core/qp_memory_core.h`: whatever is done with any number of them, each one lists what a
    list with the same operations holds, in both directions. -/

namespace QPHi
open Chain

/-- What each head that is in use lists. -/
abbrev Queues := Ptr → Option (List Ptr)

/-- The cell `x` is a head in use, or linked in a queue. -/
def Queues.Uses (σ : Queues) (x : Ptr) : Prop := ∃ q L, σ q = some L ∧ x ∈ q :: L

variable {σ : Queues} {h h' : Heap} {q x newq : Ptr} {L L' l₁ l₂ : List Ptr}

/-- The memory holds the queues, and no cell belongs to two of them. -/
structure Queues.Holds (σ : Queues) (h : Heap) : Prop where
  ring : ∀ q L, σ q = some L → DRing h.qnext h.qprev q L
  nodup : ∀ q L, σ q = some L → (q :: L).Nodup
  null : ∀ q L, σ q = some L → NULL ∉ q :: L
  apart : ∀ q L q' L', σ q = some L → σ q' = some L' → q ≠ q' → ∀ x ∈ q :: L, x ∉ q' :: L'

namespace Queues.Holds

theorem drop (H : σ.Holds h) (q : Ptr) : Queues.Holds (Function.update σ q none) h := by
  have hsub : ∀ p L, Function.update σ q none p = some L → σ p = some L := by
    intro p L hp
    by_cases hpq : p = q
    · rw [hpq, Function.update_self] at hp
      cases hp
    · rwa [Function.update_of_ne hpq] at hp
  exact ⟨fun p L hp => H.ring p L (hsub p L hp), fun p L hp => H.nodup p L (hsub p L hp),
    fun p L hp => H.null p L (hsub p L hp),
    fun p L p' L' hp hp' => H.apart p L p' L' (hsub p L hp) (hsub p' L' hp')⟩

/-- The queue of the head `q` is replaced, and the links of the others are left alone. -/
theorem replace (H : σ.Holds h) (hring : DRing h'.qnext h'.qprev q L') (hnd : (q :: L').Nodup) (hnull : NULL ∉ q :: L')
    (hcells : ∀ p L, σ p = some L → p ≠ q → ∀ x ∈ q :: L', x ∉ p :: L)
    (hframe : ∀ p L, σ p = some L → p ≠ q → ∀ y ∈ p :: L, h'.qnext y = h.qnext y ∧ h'.qprev y = h.qprev y) :
    Queues.Holds (Function.update σ q (some L')) h' := by
  have hcase : ∀ p L, Function.update σ q (some L') p = some L → (p = q ∧ L = L') ∨ (p ≠ q ∧ σ p = some L) := by
    intro p L hp
    by_cases hpq : p = q
    · rw [hpq, Function.update_self] at hp
      exact .inl ⟨hpq, (Option.some.inj hp).symm⟩
    · rw [Function.update_of_ne hpq] at hp
      exact .inr ⟨hpq, hp⟩
  refine ⟨fun p L hp => ?_, fun p L hp => ?_, fun p L hp => ?_, fun p L p' L'' hp hp' hne => ?_⟩
  · rcases hcase p L hp with ⟨rfl, rfl⟩ | ⟨hpq, hp⟩
    · exact hring
    · exact (H.ring p L hp).congr (fun y hy => (hframe p L hp hpq y hy).1) fun y hy => (hframe p L hp hpq y hy).2
  · rcases hcase p L hp with ⟨rfl, rfl⟩ | ⟨-, hp⟩
    · exact hnd
    · exact H.nodup p L hp
  · rcases hcase p L hp with ⟨rfl, rfl⟩ | ⟨-, hp⟩
    · exact hnull
    · exact H.null p L hp
  · rcases hcase p L hp with ⟨rfl, rfl⟩ | ⟨hpq, hold⟩
    · rcases hcase p' L'' hp' with ⟨rfl, -⟩ | ⟨hpq', hold'⟩
      · exact absurd rfl hne
      · exact hcells p' L'' hold' hpq'
    · rcases hcase p' L'' hp' with ⟨rfl, rfl⟩ | ⟨-, hold'⟩
      · exact fun x hx hx' => hcells p L hold hpq x hx' hx
      · exact H.apart p L p' L'' hold hold' hne

/-- A queue that gets at most one cell that was not in use. -/
theorem replaceWith (H : σ.Holds h) (hq : σ q = some L) (hring : DRing h'.qnext h'.qprev q L') (hnd : (q :: L').Nodup)
    (hnull : NULL ∉ q :: L') (hnew : ∀ y ∈ q :: L', y ∈ q :: L ∨ ¬σ.Uses y)
    (hframe : ∀ y, y ∉ q :: L → σ.Uses y → h'.qnext y = h.qnext y ∧ h'.qprev y = h.qprev y) :
    Queues.Holds (Function.update σ q (some L')) h' := by
  refine H.replace hring hnd hnull (fun p K hp hpq y hy hyp => ?_) fun p K hp hpq y hy => ?_
  · rcases hnew y hy with hy | hy
    · exact H.apart q L p K hq hp (Ne.symm hpq) y hy hyp
    · exact hy ⟨p, K, hp, hyp⟩
  · exact hframe y (H.apart p K q L hp hq hpq y hy) ⟨p, K, hp, hy⟩

theorem ne_null (H : σ.Holds h) (hq : σ q = some L) (hx : x ∈ q :: L) : x ≠ NULL := fun heq => H.null q L hq (heq ▸ hx)

theorem notMem (hq : σ q = some L) (hnew : ¬σ.Uses x) : x ∉ q :: L := fun hx => hnew ⟨q, L, hq, hx⟩

/-! ### One operation -/

theorem init (H : σ.Holds h) (hq : q ≠ NULL) (hnew : ¬σ.Uses q) :
    Queues.Holds (Function.update σ q (some [])) (h.queueInit q) := by
  rw [Heap.queueInit, if_neg hq]
  refine H.replace ⟨Function.update_self _ _ _, Function.update_self _ _ _⟩ (List.nodup_singleton q) ?_ ?_ ?_
  · exact fun hmem => hq (List.mem_singleton.mp hmem).symm
  · intro p L hp _ x hx hmem
    rw [List.mem_singleton.mp hx] at hmem
    exact hnew ⟨p, L, hp, hmem⟩
  · intro p L hp _ y hy
    have hyq : y ≠ q := fun heq => hnew ⟨p, L, hp, heq ▸ hy⟩
    exact ⟨Function.update_of_ne hyq _ _, Function.update_of_ne hyq _ _⟩

theorem insertAfterHead (H : σ.Holds h) (hq : σ q = some L) (hx : x ≠ NULL) (hnew : ¬σ.Uses x) :
    Queues.Holds (Function.update σ q (some (x :: L))) (h.queueInsertAfterHead q x) := by
  have hring := H.ring q L hq
  obtain ⟨hqL, hL⟩ := List.nodup_cons.mp (H.nodup q L hq)
  obtain ⟨hxq, hxL⟩ := not_or.mp (List.mem_cons.not.mp (notMem hq hnew))
  have hqn := H.ne_null hq List.mem_cons_self
  have hheap : h.queueInsertAfterHead q x = { h with
      qnext := Function.update (Function.update h.qnext x (h.qnext q)) q x
      qprev := Function.update (Function.update h.qprev (h.qnext q) x) x q } := by
    simp only [Heap.queueInsertAfterHead, if_pos (And.intro hqn hx), Function.update_self]
  rw [hheap]
  refine H.replaceWith hq (hring.push hxq hxL hqL hL) ?_ ?_ (fun y hy => ?_) fun y hy huse => ?_
  · have hswap : (q :: x :: L).Perm (x :: q :: L) := List.Perm.swap x q L
    exact hswap.nodup_iff.mpr (List.nodup_cons.mpr ⟨notMem hq hnew, H.nodup q L hq⟩)
  · simp only [List.mem_cons, not_or]
    exact ⟨Ne.symm hqn, Ne.symm hx, fun hmem => H.null q L hq (List.mem_cons_of_mem q hmem)⟩
  · simp only [List.mem_cons] at hy ⊢
    rcases hy with rfl | rfl | hy
    · exact .inl (.inl rfl)
    · exact .inr hnew
    · exact .inl (.inr hy)
  · have hyx : y ≠ x := fun heq => hnew (heq ▸ huse)
    have hyq : y ≠ q := fun heq => hy (heq ▸ List.mem_cons_self)
    have hyn : y ≠ h.qnext q := by
      intro heq
      refine hy (heq ▸ ?_)
      rw [hring.next_eq]
      cases L with
      | nil => exact List.mem_cons_self
      | cons z l => exact List.mem_cons_of_mem q List.mem_cons_self
    simp only [Function.update_of_ne hyq, Function.update_of_ne hyx, Function.update_of_ne hyn, and_self]

/-- With the two links of every cell exchanged, every queue runs backwards. -/
theorem mirror (H : σ.Holds h) :
    Queues.Holds (fun q => (σ q).map List.reverse) { h with qnext := h.qprev, qprev := h.qnext } := by
  have hback : ∀ q L, (σ q).map List.reverse = some L → σ q = some L.reverse := by
    intro q L hq
    obtain ⟨K, hK, rfl⟩ := Option.map_eq_some_iff.mp hq
    rw [List.reverse_reverse, hK]
  have hmem : ∀ (q : Ptr) (L : List Ptr) (x : Ptr), x ∈ q :: L.reverse ↔ x ∈ q :: L := by
    intro q L x
    simp only [List.mem_cons, List.mem_reverse]
  refine ⟨fun q L hq => ?_, fun q L hq => ?_, fun q L hq => ?_, fun q L q' L' hq hq' hne x hx => ?_⟩
  · have hring := (H.ring q _ (hback q L hq)).symm
    rwa [List.reverse_reverse] at hring
  · have hnd := H.nodup q _ (hback q L hq)
    rw [List.nodup_cons, List.mem_reverse, List.nodup_reverse] at hnd
    exact List.nodup_cons.mpr hnd
  · exact fun hnull => H.null q _ (hback q L hq) ((hmem q L _).mpr hnull)
  · have hap := H.apart q _ q' _ (hback q L hq) (hback q' L' hq') hne x ((hmem q L x).mpr hx)
    exact fun hx' => hap ((hmem q' L' x).mpr hx')

theorem insertAfterTail (H : σ.Holds h) (hq : σ q = some L) (hx : x ≠ NULL) (hnew : ¬σ.Uses x) :
    Queues.Holds (Function.update σ q (some (L ++ [x]))) (h.queueInsertAfterTail q x) := by
  have hq' : (σ q).map List.reverse = some L.reverse := by rw [hq, Option.map_some]
  have hnew' : ¬Queues.Uses (fun q => (σ q).map List.reverse) x := by
    rintro ⟨p, K, hp, hmem⟩
    obtain ⟨L, hL, rfl⟩ := Option.map_eq_some_iff.mp hp
    exact hnew ⟨p, L, hL, by simpa using hmem⟩
  have H' := (H.mirror.insertAfterHead hq' hx hnew').mirror
  have hσ : (fun p => (Function.update (fun q => (σ q).map List.reverse) q (some (x :: L.reverse)) p).map List.reverse) =
      Function.update σ q (some (L ++ [x])) := by
    funext p
    by_cases hp : p = q
    · simp only [hp, Function.update_self, Option.map_some, List.reverse_cons, List.reverse_reverse]
    · simp only [Function.update_of_ne hp, Option.map_map, List.reverse_involutive.comp_self, Option.map_id_fun, id_eq]
  rw [hσ] at H'
  have hqn := H.ne_null hq List.mem_cons_self
  have hheap : h.queueInsertAfterTail q x =
      { Heap.queueInsertAfterHead { h with qnext := h.qprev, qprev := h.qnext } q x with
        qnext := (Heap.queueInsertAfterHead { h with qnext := h.qprev, qprev := h.qnext } q x).qprev
        qprev := (Heap.queueInsertAfterHead { h with qnext := h.qprev, qprev := h.qnext } q x).qnext } := by
    simp only [Heap.queueInsertAfterTail, Heap.queueInsertAfterHead, if_pos (And.intro hqn hx)]
  rw [hheap]
  exact H'

theorem remove (H : σ.Holds h) (hq : σ q = some L) (hx : x ∈ L) :
    Queues.Holds (Function.update σ q (some (L.erase x))) (h.queueRemove x) := by
  obtain ⟨l₁, l₂, rfl⟩ := List.append_of_mem hx
  have hring := H.ring q _ hq
  have hnd := H.nodup q _ hq
  have hx₁ : x ∉ l₁ := by
    intro hmem
    have hap := (List.nodup_append.mp (List.nodup_cons.mp hnd).2).2.2
    exact hap x hmem x List.mem_cons_self rfl
  have hsub : q :: (l₁ ++ l₂) ⊆ q :: (l₁ ++ x :: l₂) := by
    refine List.cons_subset_cons q fun y hy => ?_
    rcases List.mem_append.mp hy with hy | hy
    · exact List.mem_append_left _ hy
    · exact List.mem_append_right _ (List.mem_cons_of_mem x hy)
  have hheap : h.queueRemove x = { h with
      qnext := Function.update h.qnext (h.qprev x) (h.qnext x)
      qprev := Function.update h.qprev (h.qnext x) (h.qprev x) } := by
    have hprev : Function.update h.qprev (h.qnext x) (h.qprev x) x = h.qprev x := by
      rw [Function.update_apply]
      split <;> rfl
    rw [Heap.queueRemove, if_neg (H.ne_null hq (List.mem_cons_of_mem q hx))]
    simp only [hprev]
  rw [List.erase_append_right _ hx₁, List.erase_cons_head, hheap]
  refine H.replaceWith hq (hring.remove hnd) ?_ (fun hmem => H.null q _ hq (hsub hmem)) (fun y hy => .inl (hsub hy))
    fun y hy huse => ?_
  · refine List.Nodup.sublist ?_ hnd
    exact ((List.sublist_cons_self x l₂).append_left l₁).cons_cons q
  · -- The two neighbours of the cell are cells of the queue.
    have hnext : h.qnext x ∈ q :: (l₁ ++ x :: l₂) := Ring.next_mem hring.forth hx
    have hprev : h.qprev x ∈ q :: (l₁ ++ x :: l₂) := by
      have hmem := Ring.next_mem hring.back (List.mem_reverse.mpr hx)
      simpa only [List.mem_cons, List.mem_reverse] using hmem
    have hyn : y ≠ h.qnext x := fun heq => hy (heq ▸ hnext)
    have hyp : y ≠ h.qprev x := fun heq => hy (heq ▸ hprev)
    exact ⟨Function.update_of_ne hyp _ _, Function.update_of_ne hyn _ _⟩

theorem prev_mem (hring : DRing h.qnext h.qprev q L) (hx : x ∈ q :: L) : h.qprev x ∈ q :: L := by
  have hmem : h.qprev x ∈ q :: L.reverse := by
    rcases List.mem_cons.mp hx with rfl | hx
    · rw [hring.back.next_eq]
      cases L.reverse with
      | nil => exact List.mem_cons_self
      | cons y l => exact List.mem_cons_of_mem _ List.mem_cons_self
    · exact Ring.next_mem hring.back (List.mem_reverse.mpr hx)
  simpa only [List.mem_cons, List.mem_reverse] using hmem

/-- `qp_queue_split` cuts the queue, and touches no cell outside of it. -/
theorem split_rings (H : σ.Holds h) (hq : σ q = some (l₁ ++ x :: l₂)) (hnewq : newq ≠ NULL) (hnew : ¬σ.Uses newq) :
    DRing (h.queueSplit q x newq).qnext (h.queueSplit q x newq).qprev q l₁ ∧
      DRing (h.queueSplit q x newq).qnext (h.queueSplit q x newq).qprev newq (x :: l₂) ∧
      ∀ y, y ≠ newq → y ∉ q :: (l₁ ++ x :: l₂) →
        (h.queueSplit q x newq).qnext y = h.qnext y ∧ (h.queueSplit q x newq).qprev y = h.qprev y := by
  have hring := H.ring q _ hq
  have hout := notMem hq hnew
  have hxmem : x ∈ q :: (l₁ ++ x :: l₂) := by simp
  have hne : q ≠ NULL ∧ x ≠ NULL ∧ newq ≠ NULL :=
    ⟨H.ne_null hq List.mem_cons_self, H.ne_null hq hxmem, hnewq⟩
  have hxn : x ≠ newq := fun heq => hout (heq ▸ hxmem)
  have hnext : (h.queueSplit q x newq).qnext =
      Function.update (Function.update (Function.update h.qnext (h.qprev q) newq) newq x) (h.qprev x) q := by
    simp only [Heap.queueSplit, if_pos hne, Function.update_self, Function.update_of_ne hxn]
  have hprev : (h.queueSplit q x newq).qprev =
      Function.update (Function.update (Function.update h.qprev newq (h.qprev q)) q (h.qprev x)) x newq := by
    simp only [Heap.queueSplit, if_pos hne, Function.update_of_ne hxn]
  obtain ⟨h₁, h₂⟩ := hring.split (H.nodup q _ hq) hout hnext hprev
  refine ⟨h₁, h₂, fun y hyn hy => ?_⟩
  have hyq : y ≠ q := fun heq => hy (heq ▸ List.mem_cons_self)
  have hyx : y ≠ x := fun heq => hy (heq ▸ hxmem)
  have hyz : y ≠ h.qprev q := fun heq => hy (heq ▸ prev_mem hring List.mem_cons_self)
  have hyw : y ≠ h.qprev x := fun heq => hy (heq ▸ prev_mem hring hxmem)
  rw [hnext, hprev, Function.update_of_ne hyw, Function.update_of_ne hyn, Function.update_of_ne hyz, Function.update_of_ne hyx,
    Function.update_of_ne hyq, Function.update_of_ne hyn]
  exact ⟨rfl, rfl⟩

theorem split (H : σ.Holds h) (hq : σ q = some (l₁ ++ x :: l₂)) (hnewq : newq ≠ NULL) (hnew : ¬σ.Uses newq) :
    Queues.Holds (Function.update (Function.update σ q (some l₁)) newq (some (x :: l₂))) (h.queueSplit q x newq) := by
  obtain ⟨h₁, h₂, hframe⟩ := H.split_rings hq hnewq hnew
  have hout := notMem hq hnew
  have hnd := H.nodup q _ hq
  have hnull := H.null q _ hq
  rw [← List.cons_append] at hnd hout hnull
  obtain ⟨hnd₁, hnd₂, hap⟩ := List.nodup_append.mp hnd
  have hsub₁ : ∀ y ∈ q :: l₁, y ∈ q :: (l₁ ++ x :: l₂) := fun y hy => by
    rw [← List.cons_append]
    exact List.mem_append_left _ hy
  have hsub₂ : ∀ y ∈ x :: l₂, y ∈ q :: (l₁ ++ x :: l₂) := fun y hy => by
    rw [← List.cons_append]
    exact List.mem_append_right _ hy
  have H₁ : Queues.Holds (Function.update σ q (some l₁)) (h.queueSplit q x newq) := by
    refine H.replaceWith hq h₁ hnd₁ (fun hmem => H.null q _ hq (hsub₁ _ hmem)) (fun y hy => .inl (hsub₁ y hy)) fun y hy huse => ?_
    exact hframe y (fun heq => hnew (heq ▸ huse)) hy
  refine H₁.replace h₂ ?_ ?_ (fun p K hp hpn y hy hyp => ?_) fun p K _ _ y _ => ⟨rfl, rfl⟩
  · exact List.nodup_cons.mpr ⟨fun hmem => hout (List.mem_append_right _ hmem), hnd₂⟩
  · rw [List.mem_cons, not_or]
    exact ⟨Ne.symm hnewq, fun hmem => hnull (List.mem_append_right _ hmem)⟩
  · by_cases hpq : p = q
    · rw [hpq, Function.update_self] at hp
      rw [hpq, ← Option.some.inj hp] at hyp
      rcases List.mem_cons.mp hy with rfl | hy
      · exact hout (List.mem_append_left _ hyp)
      · exact hap y hyp y hy rfl
    · rw [Function.update_of_ne hpq] at hp
      rcases List.mem_cons.mp hy with rfl | hy
      · exact hnew ⟨p, K, hp, hyp⟩
      · exact H.apart q _ p K hq hp (Ne.symm hpq) y (hsub₂ y hy) hyp

/-- `qp_queue_merge` joins the two queues, and touches no cell outside of them. -/
theorem merge_rings (H : σ.Holds h) (hq : σ q = some L) (hnewq : σ newq = some L') (hne : newq ≠ q) :
    DRing (h.queueMerge q newq).qnext (h.queueMerge q newq).qprev q (L ++ L') ∧
      ∀ y, y ∉ q :: L → y ∉ newq :: L' →
        (h.queueMerge q newq).qnext y = h.qnext y ∧ (h.queueMerge q newq).qprev y = h.qprev y := by
  have hring := H.ring q L hq
  have hring' := H.ring newq L' hnewq
  have hboth : q ≠ NULL ∧ newq ≠ NULL := ⟨H.ne_null hq List.mem_cons_self, H.ne_null hnewq List.mem_cons_self⟩
  obtain ⟨back, hback⟩ : ∃ back, back = Function.update h.qprev (h.qnext newq) (h.qprev q) := ⟨_, rfl⟩
  have hlink : Function.update h.qnext (h.qprev q) (h.qnext newq) newq = h.qnext newq := by
    rw [Function.update_apply]
    split <;> rfl
  have hnext : (h.queueMerge q newq).qnext =
      Function.update (Function.update h.qnext (h.qprev q) (h.qnext newq)) (back newq) q := by
    simp only [Heap.queueMerge, if_pos hboth, Function.update_self, hlink, hback]
  have hprev : (h.queueMerge q newq).qprev = Function.update back q (back newq) := by
    simp only [Heap.queueMerge, if_pos hboth, hlink, hback]
  refine ⟨hring.merge hring' (H.nodup q L hq) (H.nodup newq L' hnewq) (H.apart q L newq L' hq hnewq (Ne.symm hne)) hback hnext
    hprev, fun y hy hy' => ?_⟩
  have hyq : y ≠ q := fun heq => hy (heq ▸ List.mem_cons_self)
  have hyz : y ≠ h.qprev q := fun heq => hy (heq ▸ prev_mem hring List.mem_cons_self)
  have hfirst : h.qnext newq ∈ newq :: L' := by
    rw [hring'.next_eq]
    cases L' with
    | nil => exact List.mem_cons_self
    | cons z l => exact List.mem_cons_of_mem _ List.mem_cons_self
  have hyn : y ≠ h.qnext newq := fun heq => hy' (heq ▸ hfirst)
  have hbackmem : back newq ∈ q :: L ∨ back newq ∈ newq :: L' := by
    rw [hback, Function.update_apply]
    split
    · exact .inl (prev_mem hring List.mem_cons_self)
    · exact .inr (prev_mem hring' List.mem_cons_self)
  have hyb : y ≠ back newq := fun heq => hbackmem.elim (fun hmem => hy (heq ▸ hmem)) fun hmem => hy' (heq ▸ hmem)
  rw [hnext, hprev, Function.update_of_ne hyb, Function.update_of_ne hyz, Function.update_of_ne hyq, hback,
    Function.update_of_ne hyn]
  exact ⟨rfl, rfl⟩

theorem merge (H : σ.Holds h) (hq : σ q = some L) (hnewq : σ newq = some L') (hne : newq ≠ q) :
    Queues.Holds (Function.update (Function.update σ q (some (L ++ L'))) newq none) (h.queueMerge q newq) := by
  obtain ⟨hring, hframe⟩ := H.merge_rings hq hnewq hne
  have hap := H.apart q L newq L' hq hnewq (Ne.symm hne)
  have hdrop : ∀ p K, Function.update σ newq none p = some K → p ≠ newq ∧ σ p = some K := by
    intro p K hp
    by_cases hpn : p = newq
    · rw [hpn, Function.update_self] at hp
      cases hp
    · rw [Function.update_of_ne hpn] at hp
      exact ⟨hpn, hp⟩
  rw [Function.update_comm (Ne.symm hne)]
  refine (H.drop newq).replace hring ?_ ?_ (fun p K hp hpq x hx hxp => ?_) fun p K hp hpq y hy => ?_
  · rw [← List.cons_append]
    refine List.nodup_append.mpr ⟨H.nodup q L hq, (List.nodup_cons.mp (H.nodup newq L' hnewq)).2, fun y hy z hz heq => ?_⟩
    exact hap y hy (heq ▸ List.mem_cons_of_mem newq hz)
  · rw [← List.cons_append, List.mem_append, not_or]
    exact ⟨H.null q L hq, fun hmem => H.null newq L' hnewq (List.mem_cons_of_mem newq hmem)⟩
  · obtain ⟨hpn, hp⟩ := hdrop p K hp
    rw [← List.cons_append] at hx
    rcases List.mem_append.mp hx with hx | hx
    · exact H.apart q L p K hq hp (Ne.symm hpq) x hx hxp
    · exact H.apart newq L' p K hnewq hp (Ne.symm hpn) x (List.mem_cons_of_mem newq hx) hxp
  · obtain ⟨hpn, hp⟩ := hdrop p K hp
    exact hframe y (H.apart p K q L hp hq hpq y hy) (H.apart p K newq L' hp hnewq hpn y hy)

/-- A queue that was split and merged again has its links as they were. -/
theorem merge_split (H : σ.Holds h) (hq : σ q = some (l₁ ++ x :: l₂)) (hnewq : newq ≠ NULL) (hnew : ¬σ.Uses newq) (y : Ptr)
    (hy : y ≠ newq) : ((h.queueSplit q x newq).queueMerge q newq).qnext y = h.qnext y ∧
      ((h.queueSplit q x newq).queueMerge q newq).qprev y = h.qprev y := by
  have hqn : q ≠ newq := fun heq => hnew (heq ▸ ⟨q, _, hq, List.mem_cons_self⟩)
  have hq' : Function.update (Function.update σ q (some l₁)) newq (some (x :: l₂)) q = some l₁ := by
    rw [Function.update_of_ne hqn, Function.update_self]
  obtain ⟨hring, hframe⟩ := (H.split hq hnewq hnew).merge_rings hq' (Function.update_self _ _ _) (Ne.symm hqn)
  by_cases hmem : y ∈ q :: (l₁ ++ x :: l₂)
  · exact (H.ring q _ hq).agree hring y hmem
  · have hout : y ∉ q :: l₁ ∧ y ∉ x :: l₂ := by
      rw [← List.cons_append, List.mem_append, not_or] at hmem
      exact hmem
    have hsplit := (H.split_rings hq hnewq hnew).2.2 y hy hmem
    have hmerge := hframe y hout.1 (by rw [List.mem_cons, not_or]; exact ⟨hy, hout.2⟩)
    exact ⟨hmerge.1.trans hsplit.1, hmerge.2.trans hsplit.2⟩

end Queues.Holds

/-! ### Whole runs -/

/-- Every run of operations on queues, with the lists that stand for them: heads and nodes that are not in use are
    initialised and linked, nodes are removed, and queues are cut and joined. A head that was merged into another
    is not in use until it is initialised again. -/
inductive QueueRuns : Heap → Queues → Prop
  | start (h : Heap) : QueueRuns h fun _ => none
  | init {h : Heap} {σ : Queues} {q : Ptr} (R : QueueRuns h σ) (hq : q ≠ NULL) (hnew : ¬σ.Uses q) :
      QueueRuns (h.queueInit q) (Function.update σ q (some []))
  | insertAfterHead {h : Heap} {σ : Queues} {q x : Ptr} {L : List Ptr} (R : QueueRuns h σ) (hq : σ q = some L) (hx : x ≠ NULL)
      (hnew : ¬σ.Uses x) : QueueRuns (h.queueInsertAfterHead q x) (Function.update σ q (some (x :: L)))
  | insertAfterTail {h : Heap} {σ : Queues} {q x : Ptr} {L : List Ptr} (R : QueueRuns h σ) (hq : σ q = some L) (hx : x ≠ NULL)
      (hnew : ¬σ.Uses x) : QueueRuns (h.queueInsertAfterTail q x) (Function.update σ q (some (L ++ [x])))
  | remove {h : Heap} {σ : Queues} {q x : Ptr} {L : List Ptr} (R : QueueRuns h σ) (hq : σ q = some L) (hx : x ∈ L) :
      QueueRuns (h.queueRemove x) (Function.update σ q (some (L.erase x)))
  | split {h : Heap} {σ : Queues} {q x newq : Ptr} {l₁ l₂ : List Ptr} (R : QueueRuns h σ) (hq : σ q = some (l₁ ++ x :: l₂))
      (hnewq : newq ≠ NULL) (hnew : ¬σ.Uses newq) : QueueRuns (h.queueSplit q x newq)
        (Function.update (Function.update σ q (some l₁)) newq (some (x :: l₂)))
  | merge {h : Heap} {σ : Queues} {q newq : Ptr} {L L' : List Ptr} (R : QueueRuns h σ) (hq : σ q = some L)
      (hnewq : σ newq = some L') (hne : newq ≠ q) : QueueRuns (h.queueMerge q newq)
        (Function.update (Function.update σ q (some (L ++ L'))) newq none)

theorem QueueRuns.holds (R : QueueRuns h σ) : σ.Holds h := by
  induction R with
  | start h => exact ⟨by simp, by simp, by simp, by simp⟩
  | init _ hq hnew ih => exact ih.init hq hnew
  | insertAfterHead _ hq hx hnew ih => exact ih.insertAfterHead hq hx hnew
  | insertAfterTail _ hq hx hnew ih => exact ih.insertAfterTail hq hx hnew
  | remove _ hq hx ih => exact ih.remove hq hx
  | split _ hq hnewq hnew ih => exact ih.split hq hnewq hnew
  | merge _ hq hnewq hne ih => exact ih.merge hq hnewq hne

/-- The queue at `q` lists `L` forwards and backwards, and its ends are those of `L`. -/
structure Heap.Lists (h : Heap) (q : Ptr) (L : List Ptr) : Prop where
  nodup : (q :: L).Nodup
  forth : Ring h.qnext q L
  back : Ring h.qprev q L.reverse
  isEmpty : h.queueIsEmpty q = true ↔ L = []
  first : h.queueFirst q = L.head?.getD NULL
  last : h.queueLast q = L.getLast?.getD NULL

theorem Queues.Holds.lists (H : σ.Holds h) (hq : σ q = some L) : h.Lists q L := by
  have hring := H.ring q L hq
  have hqL := (List.nodup_cons.mp (H.nodup q L hq)).1
  have hqn := H.ne_null hq List.mem_cons_self
  have hempty : h.queueIsEmpty q = true ↔ L = [] := by
    rw [Heap.queueIsEmpty, if_neg hqn, decide_eq_true_iff, eq_comm]
    exact hring.prev_eq_self_iff hqL
  refine ⟨H.nodup q L hq, hring.forth, hring.back, hempty, ?_, ?_⟩
  · cases L with
    | nil => rw [Heap.queueFirst, if_pos (hempty.mpr rfl)]; rfl
    | cons y l =>
      rw [Heap.queueFirst, if_neg fun h => List.cons_ne_nil y l (hempty.mp h), hring.next_eq]
      rfl
  · cases hL : L.getLast? with
    | none => rw [Heap.queueLast, if_pos (hempty.mpr (List.getLast?_eq_none_iff.mp hL))]; rfl
    | some z =>
      have hne : L ≠ [] := by
        rintro rfl
        cases hL
      rw [Heap.queueLast, if_neg fun h => hne (hempty.mp h), hring.last_eq, hL]
      rfl

/-- In every run each queue in use lists what its list holds, and cutting a queue and joining it again restores
    its links. -/
theorem queueRuns_refine (R : QueueRuns h σ) :
    (∀ q L, σ q = some L → h.Lists q L) ∧
      ∀ q l₁ x l₂ newq, σ q = some (l₁ ++ x :: l₂) → newq ≠ NULL → ¬σ.Uses newq → ∀ y, y ≠ newq →
        ((h.queueSplit q x newq).queueMerge q newq).qnext y = h.qnext y ∧
          ((h.queueSplit q x newq).queueMerge q newq).qprev y = h.qprev y :=
  ⟨fun _ _ hq => R.holds.lists hq, fun _ _ _ _ _ hq hnewq hnew y hy => R.holds.merge_split hq hnewq hnew y hy⟩

/-- The nodes 2 and 1 are put into the queue at 100, which is then cut before the node 1. -/
theorem queueRuns_refine_split : ∃ h σ, QueueRuns h σ ∧ h.Lists 100 [2] ∧ h.Lists 200 [1] := by
  have hfresh : ∀ x : Ptr, ¬Queues.Uses (fun _ => none) x := fun x huse => by
    obtain ⟨q, L, hq, -⟩ := huse
    cases hq
  have hunused : ∀ {x : Ptr} {L : List Ptr}, x ∉ 100 :: L → ¬Queues.Uses (Function.update (fun _ => none) 100 (some L)) x := by
    rintro x L hx ⟨q, K, hq, hmem⟩
    by_cases hq100 : q = 100
    · rw [hq100, Function.update_self] at hq
      rw [hq100, ← Option.some.inj hq] at hmem
      exact hx hmem
    · rw [Function.update_of_ne hq100] at hq
      cases hq
  have R₀ := QueueRuns.start ⟨fun _ => 0, fun _ => 0, fun _ => 0, fun _ => 0, fun _ => ⟨0, 0, 0, 0, false, false⟩,
    fun _ => ⟨0, 0, 0, 0, false, false⟩, fun _ => 0, []⟩
  have R₁ := R₀.init (q := 100) (by decide) (hfresh 100)
  have R₂ := R₁.insertAfterTail (x := 1) (Function.update_self _ _ _) (by decide) (hunused (by decide))
  rw [Function.update_idem] at R₂
  have R₃ := R₂.insertAfterHead (x := 2) (Function.update_self _ _ _) (by decide) (hunused (by decide))
  rw [Function.update_idem] at R₃
  have hq : (Function.update (fun _ => none) 100 (some [2, 1]) : Queues) 100 = some ([2] ++ 1 :: []) :=
    Function.update_self _ _ _
  have R₄ := R₃.split hq (by decide : (200 : Ptr) ≠ NULL) (hunused (by decide))
  obtain ⟨hlists, -⟩ := queueRuns_refine R₄
  refine ⟨_, _, R₄, hlists 100 [2] ?_, hlists 200 [1] (Function.update_self _ _ _)⟩
  rw [Function.update_of_ne (by decide), Function.update_self]

end QPHi
