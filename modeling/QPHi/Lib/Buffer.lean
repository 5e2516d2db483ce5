import Mathlib.Data.List.Basic

/-! Memory as a function of the address: the bytes between two addresses, and copying over them. -/

namespace Buffer

variable {α : Type} {b b' data : Nat → α} {i j m n : Nat}

/-- The `n` cells from `i` on. -/
def slice (b : Nat → α) (i n : Nat) : List α := (List.range n).map fun j => b (i + j)

/-- The `n` cells from `i` on are overwritten with `data`. -/
def store (b : Nat → α) (i n : Nat) (data : Nat → α) : Nat → α := fun j =>
  if i ≤ j ∧ j < i + n then data (j - i) else b j

@[simp] theorem length_slice : (slice b i n).length = n := by simp [slice]

@[simp] theorem slice_zero : slice b i 0 = [] := rfl

theorem slice_succ : slice b i (n + 1) = b i :: slice b (i + 1) n := by
  simp [slice, List.range_succ_eq_map, Nat.add_comm, Nat.add_left_comm]

theorem slice_congr (h : ∀ k < n, b (i + k) = b' (j + k)) : slice b i n = slice b' j n := by
  unfold slice
  rw [List.map_inj_left]
  intro k hk
  exact h k (List.mem_range.mp hk)

theorem slice_append : slice b i m ++ slice b (i + m) n = slice b i (m + n) := by
  simp only [slice, List.range_add, List.map_append, List.map_map]
  congr 2
  funext k
  simp [Nat.add_assoc]

theorem slice_split (h : m ≤ n) : slice b i m ++ slice b (i + m) (n - m) = slice b i n := by
  rw [slice_append, Nat.add_sub_cancel' h]

theorem slice_offset : slice (fun k => b (m + k)) i n = slice b (m + i) n :=
  slice_congr fun k _ => by rw [Nat.add_assoc]

theorem take_slice (h : m ≤ n) : (slice b i n).take m = slice b i m := by
  rw [← slice_split h, List.take_left' length_slice]

/-- Memory that starts with a list. -/
theorem slice_getD (l : List α) : slice (fun k => l.getD k (b k)) 0 l.length = l := by
  refine List.ext_getElem length_slice fun k hk hk' => ?_
  simp [slice, List.getD_eq_getElem?_getD, List.getElem?_eq_getElem hk']

theorem slice_store : slice (store b i n data) i n = slice data 0 n := by
  refine slice_congr fun k hk => ?_
  rw [store, if_pos ⟨Nat.le_add_right i k, Nat.add_lt_add_left hk i⟩, Nat.add_sub_cancel_left, Nat.zero_add]

/-- What lies before the cells that are overwritten. -/
theorem slice_store_before (h : j + m ≤ i) : slice (store b i n data) j m = slice b j m := by
  refine slice_congr fun k hk => if_neg fun hi => ?_
  omega

/-- What lies behind them. -/
theorem slice_store_behind (h : i + n ≤ j) : slice (store b i n data) j m = slice b j m := by
  refine slice_congr fun k hk => if_neg fun hi => ?_
  omega

/-- Cells that are appended to the first `n` ones from `i` on. -/
theorem slice_store_next : slice (store b (i + n) m data) i (n + m) = slice b i n ++ slice data 0 m := by
  rw [← slice_append, slice_store_before (Nat.le_refl (i + n)), slice_store]

theorem slice_store_append : slice (store b i n data) 0 (i + n) = slice b 0 i ++ slice data 0 n := by
  have hnext : slice (store b (0 + i) n data) 0 (i + n) = slice b 0 i ++ slice data 0 n := slice_store_next
  rwa [Nat.zero_add] at hnext

end Buffer
