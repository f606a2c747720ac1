import Mathlib

/-! Memory as a function from addresses to cells, and blocks of cells read from it and written
to it. -/
namespace LibPosix.Memory
variable {α : Type} {m : ℕ → α} {p k n : ℕ}

def load (m : ℕ → α) (p n : ℕ) : List α := (List.range n).map fun i => m (p + i)

def store (m : ℕ → α) (p : ℕ) (cells : List α) : ℕ → α :=
  fun a => if p ≤ a then cells.getD (a - p) (m a) else m a

@[simp] theorem length_load : (load m p n).length = n := by
  simp [load]

theorem take_load (h : k ≤ n) : (load m p n).take k = load m p k := by
  rw [load, load, ← List.map_take, List.take_range, Nat.min_eq_left h]

theorem load_store {cells : List α} (h : k ≤ cells.length) :
    load (store m p cells) p k = cells.take k := by
  apply List.ext_getElem
  · simp [h]
  · intro i hi _
    have hik : i < k := by simpa using hi
    have hic : i < cells.length := hik.trans_le h
    simp [load, store, List.getElem?_eq_getElem hic]

theorem store_outside {cells : List α} {a : ℕ} (h : a < p ∨ p + cells.length ≤ a) :
    store m p cells a = m a := by
  unfold store
  split_ifs with hle
  · rw [List.getD_eq_getElem?_getD, List.getElem?_eq_none (by omega), Option.getD_none]
  · rfl

theorem store_inside {cells : List α} {i : ℕ} (h : i < cells.length) :
    store m p cells (p + i) = cells[i] := by
  simp [store, List.getElem?_eq_getElem h]

end LibPosix.Memory
