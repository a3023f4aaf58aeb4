import Mathlib

/-!
# Ring buffers

A buffer of `n` cells with two indices: `out`, where the oldest element is, and
`inn`, where the next one goes. One cell always stays free, so equal indices
mean an empty buffer.

* `contents_push`, `contents_store`: storing at `inn`, one element or a block that
  does not wrap, and advancing it appends to the queue.
* `contents_store_before`: until `inn` is advanced the queue is as it was.
* `contents_advance`, `block_eq_take`: advancing `out` by a block that does not
  wrap drops it from the queue, and the block is the front of the queue.
-/

namespace RingBuffer

variable {α : Type*} {n : ℕ} {buf : ℕ → α} {inn out : ℕ}

/-- The number of elements from `out` up to `inn`. -/
def dist (n inn out : ℕ) : ℕ := (inn + n - out) % n

/-- The elements in the buffer, oldest first. -/
def contents (n : ℕ) (buf : ℕ → α) (out inn : ℕ) : List α :=
  (List.range (dist n inn out)).map fun j => buf ((out + j) % n)

/-- The `k` cells from `out` on. -/
def block (buf : ℕ → α) (out k : ℕ) : List α := (List.range k).map fun j => buf (out + j)

@[simp] theorem length_contents : (contents n buf out inn).length = dist n inn out := by
  rw [contents, List.length_map, List.length_range]

@[simp] theorem length_block (k : ℕ) : (block buf out k).length = k := by
  rw [block, List.length_map, List.length_range]

theorem getElem_contents {j : ℕ} (hj : j < (contents n buf out inn).length) :
    (contents n buf out inn)[j] = buf ((out + j) % n) := by
  simp only [contents, List.getElem_map, List.getElem_range]

/-- The distance without the wrap. -/
theorem dist_eq (hin : inn < n) (hout : out < n) :
    dist n inn out = if out ≤ inn then inn - out else n + inn - out := by
  unfold dist
  split_ifs with h
  · rw [show inn + n - out = inn - out + n by omega, Nat.add_mod_right]
    exact Nat.mod_eq_of_lt (by omega)
  · rw [Nat.add_comm inn n]
    exact Nat.mod_eq_of_lt (by omega)

theorem dist_lt (hn : 0 < n) : dist n inn out < n := Nat.mod_lt _ hn

theorem succ_mod (hin : inn < n) : (inn + 1) % n = if inn + 1 = n then 0 else inn + 1 := by
  split_ifs with h
  · rw [h, Nat.mod_self]
  · exact Nat.mod_eq_of_lt (by omega)

theorem dist_eq_zero_iff (hin : inn < n) (hout : out < n) : dist n inn out = 0 ↔ inn = out := by
  rw [dist_eq hin hout]
  split_ifs <;> omega

/-- The buffer is full when `out` is right behind `inn`. -/
theorem full_iff (hin : inn < n) (hout : out < n) :
    (inn + 1) % n = out ↔ dist n inn out = n - 1 := by
  rw [dist_eq hin hout, succ_mod hin]
  split_ifs <;> omega

theorem contents_eq_nil_iff (hin : inn < n) (hout : out < n) :
    contents n buf out inn = [] ↔ inn = out := by
  rw [← List.length_eq_zero_iff, length_contents, dist_eq_zero_iff hin hout]

theorem dist_push (hin : inn < n) (hout : out < n) (hfull : (inn + 1) % n ≠ out) :
    dist n ((inn + 1) % n) out = dist n inn out + 1 := by
  rw [dist_eq (Nat.mod_lt _ (by omega)) hout, dist_eq hin hout]
  rw [succ_mod hin] at *
  split_ifs at * <;> omega

/-- The cell of the element at place `j`. -/
theorem cell_eq (hout : out < n) {j : ℕ} (hj : j < n) :
    (out + j) % n = if out + j < n then out + j else out + j - n := by
  split_ifs with h
  · exact Nat.mod_eq_of_lt h
  · rw [Nat.mod_eq_sub_mod (by omega)]
    exact Nat.mod_eq_of_lt (by omega)

/-- Storing an element appends it. -/
theorem contents_push (hin : inn < n) (hout : out < n) (hfull : (inn + 1) % n ≠ out) (x : α) :
    contents n (Function.update buf inn x) out ((inn + 1) % n) = contents n buf out inn ++ [x] := by
  have hlt : dist n inn out < n := dist_lt (by omega)
  have hdist := dist_eq hin hout
  unfold contents
  rw [dist_push hin hout hfull, List.range_succ, List.map_append, List.map_singleton]
  congr 1
  · apply List.map_congr_left
    intro j hj
    rw [List.mem_range] at hj
    apply Function.update_of_ne
    rw [cell_eq hout (by omega)]
    split_ifs at * <;> omega
  · have hcell : (out + dist n inn out) % n = inn := by
      rw [cell_eq hout hlt]
      split_ifs at * <;> omega
    rw [hcell, Function.update_self]

/-- A block that fits behind the queue is outside its cells. -/
theorem cell_outside (hin : inn < n) (hout : out < n) {j k : ℕ} (hj : j < dist n inn out)
    (hroom : dist n inn out + k < n) :
    (out + j) % n < inn ∨ inn + k ≤ (out + j) % n := by
  have hdist := dist_eq hin hout
  rw [cell_eq hout (by omega)]
  split_ifs at * <;> omega

theorem dist_store (hin : inn < n) (hout : out < n) {k : ℕ} (hroom : dist n inn out + k < n)
    (hblock : inn + k ≤ n) : dist n ((inn + k) % n) out = dist n inn out + k := by
  have hdist := dist_eq hin hout
  have hend : (inn + k) % n = if inn + k = n then 0 else inn + k := by
    split_ifs with h
    · rw [h, Nat.mod_self]
    · exact Nat.mod_eq_of_lt (by omega)
  rw [dist_eq (Nat.mod_lt _ (by omega)) hout, hend]
  split_ifs at * <;> omega

/-- Cells outside the queue do not matter. -/
theorem contents_congr {buf' : ℕ → α}
    (h : ∀ j < dist n inn out, buf' ((out + j) % n) = buf ((out + j) % n)) :
    contents n buf' out inn = contents n buf out inn :=
  List.map_congr_left fun j hj => h j (List.mem_range.mp hj)

section Store

variable {buf' : ℕ → α} {xs : List α} (hin : inn < n) (hout : out < n)
  (hroom : dist n inn out + xs.length < n)
  (hold : ∀ k, k < inn ∨ inn + xs.length ≤ k → buf' k = buf k)
include hin hout hroom hold

/-- Storing a block behind the queue leaves it as it is. -/
theorem contents_store_before : contents n buf' out inn = contents n buf out inn :=
  contents_congr fun _ hj => hold _ (cell_outside hin hout hj hroom)

/-- Advancing over the block then appends it. -/
theorem contents_store (hblock : inn + xs.length ≤ n)
    (hnew : ∀ (j : ℕ) (hj : j < xs.length), buf' (inn + j) = xs[j]) :
    contents n buf' out ((inn + xs.length) % n) = contents n buf out inn ++ xs := by
  have hdist := dist_eq hin hout
  have hlen := dist_store hin hout hroom hblock
  apply List.ext_getElem
  · rw [List.length_append, length_contents, length_contents, hlen]
  · intro j h1 h2
    rw [getElem_contents]
    by_cases hj : j < (contents n buf out inn).length
    · rw [List.getElem_append_left hj, getElem_contents]
      exact hold _ (cell_outside hin hout (by simpa using hj) hroom)
    · rw [List.getElem_append_right (by omega)]
      rw [List.length_append] at h2
      simp only [length_contents] at hj h2 ⊢
      have hcell : (out + j) % n = inn + (j - dist n inn out) := by
        rw [cell_eq hout (by omega)]
        split_ifs at * <;> omega
      rw [hcell, hnew]

end Store

theorem dist_advance (hin : inn < n) (hout : out < n) {k : ℕ} (hk : k ≤ dist n inn out) :
    dist n inn ((out + k) % n) = dist n inn out - k := by
  have hlt : dist n inn out < n := dist_lt (by omega)
  have hdist := dist_eq hin hout
  rw [dist_eq hin (Nat.mod_lt _ (by omega)), cell_eq hout (by omega)]
  split_ifs at * <;> omega

/-- Advancing `out` drops the oldest elements. -/
theorem contents_advance (hin : inn < n) (hout : out < n) {k : ℕ} (hk : k ≤ dist n inn out) :
    contents n buf ((out + k) % n) inn = (contents n buf out inn).drop k := by
  apply List.ext_getElem
  · rw [List.length_drop, length_contents, length_contents, dist_advance hin hout hk]
  · intro j h1 h2
    rw [List.getElem_drop, getElem_contents, getElem_contents]
    rw [Nat.mod_add_mod, Nat.add_assoc]

/-- Taking the oldest element. -/
theorem contents_cons (hin : inn < n) (hout : out < n) (hne : inn ≠ out) :
    contents n buf out inn = buf out :: contents n buf ((out + 1) % n) inn := by
  have hpos : 0 < dist n inn out := Nat.pos_of_ne_zero (mt (dist_eq_zero_iff hin hout).mp hne)
  have hlt : 0 < (contents n buf out inn).length := by rwa [length_contents]
  have hfirst : (contents n buf out inn)[0] = buf out := by
    rw [getElem_contents, Nat.add_zero, Nat.mod_eq_of_lt hout]
  rw [contents_advance hin hout hpos, ← hfirst]
  exact (List.getElem_cons_drop hlt).symm

/-- A block of cells that ends by the end of the buffer is the front of the
    queue. -/
theorem block_eq_take {k : ℕ} (hk : k ≤ dist n inn out) (hend : out + k ≤ n) :
    block buf out k = (contents n buf out inn).take k := by
  apply List.ext_getElem
  · rw [List.length_take, length_block, length_contents]
    omega
  · intro j h1 h2
    rw [length_block] at h1
    rw [List.getElem_take, getElem_contents, Nat.mod_eq_of_lt (by omega)]
    simp only [block, List.getElem_map, List.getElem_range]

end RingBuffer
