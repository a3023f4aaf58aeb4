import Mathlib

/-!
# Change logs

A logger that writes an entry only when the value differs from the last one
written produces `List.destutter (· ≠ ·)` of the values it has seen. This file
describes that log from its growing end, one sample at a time, and counts what
happens between neighbouring entries.

* `steps_alternate`: presses and releases of one key alternate.
* `encard_stepsAt`, `encard_iUnion_congr`: counts as numbers of positions, also
  in a log that grows forever.
* `destutter_concat`: one more sample adds an entry iff it differs from the
  previous sample.
* `getLast?_destutter`: the last entry is the last sample.
* `steps_destutter`: the number of neighbours related by an irreflexive `r`
  (presses, releases, …) can be read off the log.
-/

namespace ChangeLog

variable {α : Type*}

theorem getLast?_map_range (f : ℕ → α) (n : ℕ) :
    ((List.range (n + 1)).map f).getLast? = some (f n) := by
  rw [List.range_succ, List.map_append, List.map_singleton, List.getLast?_concat]

/-! ## Counting between neighbours -/

section Steps

variable (r : α → α → Bool)

/-- The number of neighbours `a, b` of the list with `r a b`. -/
def steps : List α → ℕ
  | a :: b :: l => (r a b).toNat + steps (b :: l)
  | _ => 0

theorem steps_concat (l : List α) (b : α) :
    steps r (l ++ [b]) = steps r l + (l.getLast?.any (r · b)).toNat := by
  induction l with
  | nil => rfl
  | cons c l ih =>
    cases l with
    | nil => simp [steps]
    | cons d l =>
      rw [List.cons_append, List.cons_append, steps, ← List.cons_append, ih, steps,
        List.getLast?_cons_cons, Nat.add_assoc]

theorem steps_map {β : Type*} (f : β → α) (l : List β) :
    steps r (l.map f) = steps (fun a b => r (f a) (f b)) l := by
  induction l with
  | nil => rfl
  | cons a l ih =>
    cases l with
    | nil => rfl
    | cons b l =>
      rw [List.map_cons, List.map_cons, steps, steps, ← ih]
      rfl

theorem steps_map_range_succ (f : ℕ → α) (n : ℕ) :
    steps r ((List.range (n + 2)).map f) =
      steps r ((List.range (n + 1)).map f) + (r (f n) (f (n + 1))).toNat := by
  rw [List.range_succ (n := n + 1), List.map_append, List.map_singleton, steps_concat,
    getLast?_map_range]
  rfl

/-- Steps into `p` and steps out of `p` alternate: along a nonempty sequence
    their numbers differ by what holds at its two ends. -/
theorem steps_alternate (p : α → Bool) (a : α) (l : List α) :
    steps (fun x y => !p x && p y) (a :: l) + (p a).toNat =
      steps (fun x y => p x && !p y) (a :: l) + (p ((a :: l).getLast (by simp))).toNat := by
  induction l generalizing a with
  | nil => simp [steps]
  | cons b l ih =>
    have hb := ih b
    rw [List.getLast_cons (by simp)]
    simp only [steps]
    generalize p ((b :: l).getLast (by simp)) = z at hb ⊢
    cases p a <;> cases hp : p b <;> simp [hp] at hb ⊢ <;> omega

/-- The positions at which `r` holds between an entry and the next. -/
def stepsAt (l : List α) : Set ℕ :=
  {j | ∃ a b, l[j]? = some a ∧ l[j + 1]? = some b ∧ r a b = true}

theorem stepsAt_cons (a b : α) (l : List α) : stepsAt r (a :: b :: l) =
    {j | j = 0 ∧ r a b = true} ∪ Nat.succ '' stepsAt r (b :: l) := by
  ext j
  cases j with
  | zero => simp [stepsAt]
  | succ j => simp [stepsAt]

theorem encard_stepsAt (l : List α) : (stepsAt r l).encard = steps r l := by
  induction l with
  | nil => simp [stepsAt, steps]
  | cons a l ih =>
    cases l with
    | nil => simp [stepsAt, steps]
    | cons b l =>
      have hdisj : Disjoint {j | j = 0 ∧ r a b = true} (Nat.succ '' stepsAt r (b :: l)) := by
        rw [Set.disjoint_left]
        rintro j ⟨rfl, -⟩ ⟨k, -, hk⟩
        exact absurd hk (Nat.succ_ne_zero k)
      have hhead : ({j | j = 0 ∧ r a b = true} : Set ℕ).encard = (r a b).toNat := by
        cases r a b <;> simp
      rw [stepsAt_cons, Set.encard_union_eq hdisj, hhead, Nat.succ_injective.encard_image, ih, steps]
      push_cast
      rfl

/-- A longer log has at least as many steps. -/
theorem steps_mono {l l' : List α} (h : l <+: l') : steps r l ≤ steps r l' := by
  obtain ⟨t, rfl⟩ := h
  induction t using List.reverseRecOn with
  | nil => rw [List.append_nil]
  | append_singleton t b ih =>
    rw [← List.append_assoc, steps_concat]
    exact ih.trans (Nat.le_add_right _ _)

theorem stepsAt_mono {l l' : List α} (h : l <+: l') : stepsAt r l ⊆ stepsAt r l' := by
  have hget : ∀ {j : ℕ} {a : α}, l[j]? = some a → l'[j]? = some a := by
    intro j a ha
    obtain ⟨t, rfl⟩ := h
    obtain ⟨hj, -⟩ := List.getElem?_eq_some_iff.mp ha
    rw [List.getElem?_append_left hj, ha]
  rintro j ⟨a, b, ha, hb, hr⟩
  exact ⟨a, b, hget ha, hget hb, hr⟩

end Steps

/-! ## Counting what grows forever -/

section Limit

variable {β γ : Type*} {A : ℕ → Set β} {B : ℕ → Set γ}

theorem encard_iUnion_le (hA : Monotone A) (h : ∀ n, (A n).encard ≤ (B n).encard) :
    (⋃ n, A n).encard ≤ (⋃ n, B n).encard := by
  refine ENat.forall_natCast_le_iff_le.mp fun m hm => ?_
  obtain ⟨t, ht, hcard⟩ := Set.exists_subset_encard_eq hm
  have hfin : t.Finite := Set.finite_of_encard_eq_coe hcard
  -- a finite part of the union lies in one of the sets
  have hpart : ∃ N, ((hfin.toFinset : Finset β) : Set β) ⊆ A N := by
    apply Directed.exists_mem_subset_of_finset_subset_biUnion hA.directed_le
    rwa [hfin.coe_toFinset]
  obtain ⟨N, hN⟩ := hpart
  rw [hfin.coe_toFinset] at hN
  calc (m : ℕ∞) = t.encard := hcard.symm
    _ ≤ (A N).encard := Set.encard_le_encard hN
    _ ≤ (B N).encard := h N
    _ ≤ (⋃ n, B n).encard := Set.encard_le_encard (Set.subset_iUnion B N)

/-- Two growing families of sets that have the same size at every stage have
    the same size in the end. -/
theorem encard_iUnion_congr (hA : Monotone A) (hB : Monotone B)
    (h : ∀ n, (A n).encard = (B n).encard) : (⋃ n, A n).encard = (⋃ n, B n).encard :=
  le_antisymm (encard_iUnion_le hA fun n => (h n).le) (encard_iUnion_le hB fun n => (h n).ge)

end Limit

/-! ## The log grows at its end -/

section Log

variable [DecidableEq α]

theorem destutter'_concat (a b : α) (l : List α) : (l ++ [b]).destutter' (· ≠ ·) a =
    if (a :: l).getLast? = some b then l.destutter' (· ≠ ·) a
    else l.destutter' (· ≠ ·) a ++ [b] := by
  induction l generalizing a with
  | nil => by_cases h : a = b <;> simp [h]
  | cons c l ih =>
    rw [List.cons_append, List.getLast?_cons_cons]
    by_cases h : a ≠ c
    · rw [List.destutter'_cons_pos (h := h), List.destutter'_cons_pos (h := h), ih, List.cons_append]
      split_ifs <;> rfl
    · obtain rfl := not_not.mp h
      rw [List.destutter'_cons_neg (h := h), List.destutter'_cons_neg (h := h), ih]

/-- One more sample adds an entry iff it differs from the previous one. -/
theorem destutter_concat (l : List α) (b : α) : (l ++ [b]).destutter (· ≠ ·) =
    if l.getLast? = some b then l.destutter (· ≠ ·) else l.destutter (· ≠ ·) ++ [b] := by
  cases l with
  | nil => simp
  | cons a l => exact destutter'_concat a b l

/-- The last entry is the last sample. -/
theorem getLast?_destutter (l : List α) : (l.destutter (· ≠ ·)).getLast? = l.getLast? := by
  induction l using List.reverseRecOn with
  | nil => rfl
  | append_singleton l b ih =>
    rw [destutter_concat]
    split_ifs with h
    · rw [ih, h, List.getLast?_concat]
    · rw [List.getLast?_concat, List.getLast?_concat]

/-- The log has the same `r`-steps as the sequence of samples. -/
theorem steps_destutter {r : α → α → Bool} (hr : ∀ a, r a a = false) (l : List α) :
    steps r (l.destutter (· ≠ ·)) = steps r l := by
  induction l using List.reverseRecOn with
  | nil => rfl
  | append_singleton l b ih =>
    rw [destutter_concat, steps_concat]
    split_ifs with h
    · rw [ih, h, Option.any_some, hr]; rfl
    · rw [steps_concat, getLast?_destutter, ih]

end Log

end ChangeLog
