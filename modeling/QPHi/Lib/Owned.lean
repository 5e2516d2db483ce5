import Mathlib.Algebra.BigOperators.Group.Multiset.Basic
import Mathlib.Data.Multiset.UnionInter
import Mathlib.Tactic.Abel

/-! Ownership: everything that is live is owned, by one owner and once. What an owner has is a multiset, and an operation
    that acquires or releases something says so by an equation between sums of them. -/

namespace Owned
variable {ρ ι : Type} {live : List ρ} {own own' rest : Multiset ρ} {r : ρ}

/-- The live resources are those of `own`, each of them once. -/
structure Holds (live : List ρ) (own : Multiset ρ) : Prop where
  nodup : live.Nodup
  eq : (live : Multiset ρ) = own

namespace Holds

theorem mem (h : Holds live own) : r ∈ live ↔ r ∈ own := by
  rw [← h.eq, Multiset.mem_coe]

theorem nodup_own (h : Holds live own) : own.Nodup := by
  rw [← h.eq, Multiset.coe_nodup]
  exact h.nodup

/-- What becomes live has not been live before. -/
theorem acquire (h : Holds live own) (hr : r ∉ live) : Holds (r :: live) ({r} + own) where
  nodup := List.nodup_cons.mpr ⟨hr, h.nodup⟩
  eq := by rw [← Multiset.cons_coe, h.eq, Multiset.singleton_add]

/-- What is owned can be released, and is gone then. -/
theorem release [DecidableEq ρ] (h : Holds live ({r} + own)) : r ∈ live ∧ Holds (live.erase r) own := by
  have hr : r ∈ live := h.mem.mpr (Multiset.mem_add.mpr (.inl (Multiset.mem_singleton_self r)))
  refine ⟨hr, h.nodup.erase r, ?_⟩
  rw [← Multiset.coe_erase, h.eq, Multiset.singleton_add, Multiset.erase_cons_head]

/-- What one part of the owners has the others do not have. -/
theorem apart (h : Holds live (own + rest)) (hr : r ∈ own) : r ∉ rest := by
  have hdis := (Multiset.nodup_add.mp h.nodup_own).2.2
  exact fun hrest => Multiset.disjoint_left.mp hdis hr hrest

theorem of_eq (h : Holds live own) (heq : own = own') : Holds live own' := heq ▸ h

end Holds

/-! ### Many owners -/

/-- What the owners in `l` have together. -/
def total (share : ι → Multiset ρ) (l : List ι) : Multiset ρ := (l.map share).sum

variable {share share' : ι → Multiset ρ} {l l' : List ι} {i j : ι}

@[simp] theorem total_nil : total share [] = 0 := rfl

@[simp] theorem total_cons : total share (i :: l) = share i + total share l := List.sum_cons

theorem total_perm (h : l.Perm l') : total share l = total share l' := (h.map share).sum_eq

theorem total_congr (h : ∀ i ∈ l, share i = share' i) : total share l = total share' l := by
  unfold total
  rw [List.map_congr_left h]

theorem total_eq_zero (h : ∀ i ∈ l, share i = 0) : total share l = 0 := by
  induction l with
  | nil => rfl
  | cons i l ih =>
    rw [total_cons, h i List.mem_cons_self, zero_add]
    exact ih fun j hj => h j (List.mem_cons_of_mem _ hj)

theorem mem_total : r ∈ total share l ↔ ∃ i ∈ l, r ∈ share i := by
  induction l with
  | nil => simp
  | cons i l ih => simp only [total_cons, Multiset.mem_add, ih, List.mem_cons, exists_eq_or_imp]

/-- One owner and the others. -/
theorem total_split [BEq ι] [LawfulBEq ι] (h : i ∈ l) : total share l = share i + total share (l.erase i) := by
  rw [total_perm (List.perm_cons_erase h), total_cons]

/-- A resource has one owner only. -/
theorem Holds.owner [BEq ι] [LawfulBEq ι] (h : Holds live (rest + total share l)) (hi : i ∈ l) (hj : j ∈ l) (hri : r ∈ share i)
    (hrj : r ∈ share j) : i = j := by
  by_contra hne
  rw [total_split hi, add_left_comm] at h
  have hmem : r ∈ total share (l.erase i) := mem_total.mpr ⟨j, (List.mem_erase_of_ne (Ne.symm hne)).mpr hj, hrj⟩
  exact h.apart hri (Multiset.mem_add.mpr (.inr hmem))

end Owned
