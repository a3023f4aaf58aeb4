import Mathlib

/-!
# Frames with a terminator

A stream is cut into frames behind each terminator. What follows the last
terminator is not a frame yet.

* `frames_flatten`: terminated frames are got back from their concatenation.
* `frames_mono`: the frames of a prefix of a stream are a prefix of its frames.
-/

namespace Framing

variable {α : Type*} [DecidableEq α] {sep : α}

/-- The frames of a stream, when `pending` has been read since the last
    terminator. -/
def frames (sep : α) (pending : List α) : List α → List (List α)
  | [] => []
  | x :: xs =>
    if x = sep then (pending ++ [x]) :: frames sep [] xs else frames sep (pending ++ [x]) xs

/-- A single frame: the terminator at its end and nowhere else. -/
def Terminated (sep : α) (frame : List α) : Prop := ∃ body, frame = body ++ [sep] ∧ sep ∉ body

/-- Reading up to the next terminator. -/
theorem frames_body {body : List α} (h : sep ∉ body) (pending rest : List α) :
    frames sep pending (body ++ sep :: rest) = (pending ++ body ++ [sep]) :: frames sep [] rest := by
  induction body generalizing pending with
  | nil => rw [List.nil_append, frames, if_pos rfl, List.append_nil]
  | cons x body ih =>
    have hx : x ≠ sep := fun heq => h (heq ▸ List.mem_cons_self)
    rw [List.cons_append, frames, if_neg hx, ih fun hmem => h (List.mem_cons_of_mem x hmem),
      List.append_assoc pending, List.singleton_append]

theorem frames_flatten {fs : List (List α)} (h : ∀ f ∈ fs, Terminated sep f) (rest : List α) :
    frames sep [] (fs.flatten ++ rest) = fs ++ frames sep [] rest := by
  induction fs with
  | nil => rfl
  | cons f fs ih =>
    obtain ⟨body, rfl, hbody⟩ := h f List.mem_cons_self
    have hrest : (body ++ [sep]) ++ fs.flatten ++ rest = body ++ sep :: (fs.flatten ++ rest) := by
      simp only [List.append_assoc, List.cons_append, List.nil_append]
    rw [List.flatten_cons, hrest, frames_body hbody, List.nil_append,
      ih fun f hf => h f (List.mem_cons_of_mem _ hf), List.cons_append]

theorem frames_append (pending xs ys : List α) :
    frames sep pending xs <+: frames sep pending (xs ++ ys) := by
  induction xs generalizing pending with
  | nil => exact List.nil_prefix
  | cons x xs ih =>
    rw [List.cons_append, frames, frames]
    split_ifs
    · exact List.cons_prefix_cons.mpr ⟨rfl, ih []⟩
    · exact ih (pending ++ [x])

theorem frames_mono {xs ys : List α} (h : xs <+: ys) (pending : List α) :
    frames sep pending xs <+: frames sep pending ys := by
  obtain ⟨zs, rfl⟩ := h
  exact frames_append pending xs zs

end Framing
