import Mathlib.Data.List.Nodup
import Mathlib.Data.List.Perm.Basic

/-! A stack of free slots: the slot that was given back last is taken first. -/

/-- The free slots, the first one on top, and those in use. -/
structure Slots (α : Type) where
  free : List α
  used : List α

namespace Slots
variable {α : Type} {all : List α} {s : Slots α} {i : α} {rest : List α}

/-- All slots are free, the last one on top. -/
def full (all : List α) : Slots α := ⟨all.reverse, []⟩

/-- The slot on top is taken, if there is one. -/
def pop (s : Slots α) : Slots α :=
  match s.free with
  | [] => s
  | i :: rest => ⟨rest, i :: s.used⟩

def push [DecidableEq α] (s : Slots α) (i : α) : Slots α := ⟨i :: s.free, s.used.erase i⟩

@[simp] theorem full_free : (full all).free = all.reverse := rfl
@[simp] theorem full_used : (full all).used = [] := rfl
@[simp] theorem push_free [DecidableEq α] : (s.push i).free = i :: s.free := rfl
@[simp] theorem push_used [DecidableEq α] : (s.push i).used = s.used.erase i := rfl

theorem pop_cons (h : s.free = i :: rest) : s.pop = ⟨rest, i :: s.used⟩ := by
  rw [pop, h]

theorem pop_nil (h : s.free = []) : s.pop = s := by
  rw [pop, h]

/-- Every slot is in use or free, and not both. -/
def Partition (all : List α) (s : Slots α) : Prop := (s.used ++ s.free).Perm all

theorem full_partition (all : List α) : Partition all (full all) := List.reverse_perm all

theorem Partition.pop (h : Partition all s) : Partition all s.pop := by
  cases hfree : s.free with
  | nil =>
    rw [pop_nil hfree]
    exact h
  | cons i rest =>
    rw [pop_cons hfree]
    rw [Partition, hfree] at h
    exact List.perm_middle.symm.trans h

theorem Partition.push [DecidableEq α] (h : Partition all s) (hi : i ∈ s.used) : Partition all (s.push i) := by
  have hperm : (s.used.erase i ++ i :: s.free).Perm (s.used ++ s.free) :=
    List.perm_middle.trans ((List.perm_cons_erase hi).symm.append_right s.free)
  exact hperm.trans h

theorem Partition.length (h : Partition all s) : s.used.length + s.free.length = all.length := by
  rw [← List.length_append]
  exact List.Perm.length_eq h

theorem Partition.mem_of_free (h : Partition all s) (hi : i ∈ s.free) : i ∈ all :=
  (List.Perm.mem_iff h).mp (List.mem_append_right _ hi)

theorem Partition.mem_of_used (h : Partition all s) (hi : i ∈ s.used) : i ∈ all :=
  (List.Perm.mem_iff h).mp (List.mem_append_left _ hi)

/-- A slot in use is not free, if no slot is there twice. -/
theorem Partition.notMem_free (h : Partition all s) (hall : all.Nodup) (hi : i ∈ s.used) : i ∉ s.free :=
  fun hfree => (List.nodup_append'.mp ((List.Perm.nodup_iff h).mpr hall)).2.2 hi hfree

/-- Nothing is free exactly if as many slots are in use as there are. -/
theorem Partition.free_eq_nil_iff (h : Partition all s) : s.free = [] ↔ s.used.length = all.length := by
  have hlength := h.length
  rw [← List.length_eq_zero_iff]
  omega

end Slots
