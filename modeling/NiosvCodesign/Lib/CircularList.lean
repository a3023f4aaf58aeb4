import Mathlib

/-!
# Circular doubly linked lists

An intrusive list: each entry points to the one behind and the one before it, and
a head entry closes the circle. `ν` is the type of pointers.

* `Ring.insert`: inserting puts the new entry behind the head.
* `Ring.remove`: removing takes out exactly the given entry and leaves it linked
  to itself, so that removing it again changes nothing (`remove_of_detached`).
-/

namespace CircularList

/-- The pointers of all entries. -/
structure Links (ν : Type*) where
  next : ν → ν
  previous : ν → ν

variable {ν : Type*} [DecidableEq ν]

/-- Insert `entry` behind `list`. -/
def Links.insert (m : Links ν) (list entry : ν) : Links ν :=
  let m := { m with previous := Function.update m.previous entry list }
  let m := { m with next := Function.update m.next entry (m.next list) }
  let m := { m with previous := Function.update m.previous (m.next list) entry }
  { m with next := Function.update m.next list entry }

/-- Take `entry` out of its list and link it to itself. -/
def Links.remove (m : Links ν) (entry : ν) : Links ν :=
  let m := { m with previous := Function.update m.previous (m.next entry) (m.previous entry) }
  let m := { m with next := Function.update m.next (m.previous entry) (m.next entry) }
  let m := { m with previous := Function.update m.previous entry entry }
  { m with next := Function.update m.next entry entry }

/-- Linked to itself. -/
def Links.Detached (m : Links ν) (a : ν) : Prop := m.next a = a ∧ m.previous a = a

/-- `b` is behind `a`, and `a` before `b`. -/
def Links.Linked (m : Links ν) (a b : ν) : Prop := m.next a = b ∧ m.previous b = a

/-- From `a` through the entries of a list to `b`. -/
def Links.Seg (m : Links ν) : ν → List ν → ν → Prop
  | a, [], b => m.Linked a b
  | a, x :: xs, b => m.Linked a x ∧ m.Seg x xs b

/-- The list with this head has these entries, each once. -/
structure Links.Ring (m : Links ν) (head : ν) (xs : List ν) : Prop where
  seg : m.Seg head xs head
  nodup : (head :: xs).Nodup

variable {m m' : Links ν} {a b e head x : ν} {xs ys : List ν}

/-! ## Segments -/

omit [DecidableEq ν] in
theorem seg_append : m.Seg a (xs ++ x :: ys) b ↔ m.Seg a xs x ∧ m.Seg x ys b := by
  induction xs generalizing a with
  | nil => exact Iff.rfl
  | cons y xs ih =>
    show m.Linked a y ∧ m.Seg y (xs ++ x :: ys) b ↔ (m.Linked a y ∧ m.Seg y xs x) ∧ m.Seg x ys b
    rw [ih, and_assoc]

omit [DecidableEq ν] in
theorem Links.Seg.next_eq (h : m.Seg a xs b) : m.next a = xs.headD b := by
  cases xs with
  | nil => exact h.1
  | cons x xs => exact h.1.1

omit [DecidableEq ν] in
theorem Links.Seg.previous_mem (h : m.Seg a xs b) : m.previous b ∈ a :: xs := by
  induction xs generalizing a with
  | nil => exact List.mem_singleton.mpr h.2
  | cons x xs ih => exact List.mem_cons_of_mem _ (ih h.2)

omit [DecidableEq ν] in
/-- A segment only depends on the pointers within it. -/
theorem Links.Seg.congr (hnext : ∀ y ∈ a :: xs, m'.next y = m.next y)
    (hprev : ∀ y ∈ b :: xs, m'.previous y = m.previous y) (h : m.Seg a xs b) : m'.Seg a xs b := by
  induction xs generalizing a with
  | nil =>
    exact ⟨(hnext a List.mem_cons_self).trans h.1, (hprev b List.mem_cons_self).trans h.2⟩
  | cons x xs ih =>
    refine ⟨⟨(hnext a List.mem_cons_self).trans h.1.1, ?_⟩, ih ?_ ?_ h.2⟩
    · exact (hprev x (List.mem_cons_of_mem _ List.mem_cons_self)).trans h.1.2
    · exact fun y hy => hnext y (List.mem_cons_of_mem _ hy)
    · intro y hy
      rcases List.mem_cons.mp hy with rfl | hy
      · exact hprev y List.mem_cons_self
      · exact hprev y (List.mem_cons_of_mem _ (List.mem_cons_of_mem _ hy))

omit [DecidableEq ν] in
/-- A segment may begin at another entry, if the first link is adjusted. -/
theorem Links.Seg.relink (hfirst : m'.Linked e (m.next a)) (ha : ∀ y ∈ xs, m'.next y = m.next y)
    (hprev : ∀ y ∈ b :: xs, y ≠ m.next a → m'.previous y = m.previous y)
    (hnodup : xs.Nodup) (hb : b ∉ xs) (h : m.Seg a xs b) : m'.Seg e xs b := by
  cases xs with
  | nil => exact h.1 ▸ hfirst
  | cons x xs =>
    obtain ⟨hx, hxs⟩ := List.nodup_cons.mp hnodup
    obtain ⟨⟨hnext, -⟩, hseg⟩ := h
    rw [hnext] at hfirst hprev
    refine ⟨hfirst, hseg.congr ha fun y hy => hprev y ?_ ?_⟩
    · rcases List.mem_cons.mp hy with rfl | hy
      · exact List.mem_cons_self
      · exact List.mem_cons_of_mem _ (List.mem_cons_of_mem _ hy)
    · rintro rfl
      rcases List.mem_cons.mp hy with rfl | hy
      · exact hb List.mem_cons_self
      · exact hx hy

/-! ## Insertion -/

theorem insert_next : (m.insert head e).next =
    Function.update (Function.update m.next e (m.next head)) head e := rfl

theorem insert_previous (he : e ≠ head) : (m.insert head e).previous =
    Function.update (Function.update m.previous e head) (m.next head) e := by
  have hnext : Function.update m.next e (m.next head) head = m.next head :=
    Function.update_of_ne he.symm _ _
  show Function.update (Function.update m.previous e head)
    (Function.update m.next e (m.next head) head) e = _
  rw [hnext]

theorem Links.Ring.insert (h : m.Ring head xs) (he : e ∉ head :: xs) :
    (m.insert head e).Ring head (e :: xs) := by
  obtain ⟨hhead, hxs⟩ := List.nodup_cons.mp h.nodup
  have hne : e ≠ head := fun heq => he (heq ▸ List.mem_cons_self)
  have hmem : e ∉ xs := fun hmem => he (List.mem_cons_of_mem _ hmem)
  have hfirst : m.next head ≠ e := by
    rw [h.seg.next_eq]
    cases xs with
    | nil => exact hne.symm
    | cons x xs => exact fun heq => hmem (heq ▸ List.mem_cons_self)
  have hlinked : (m.insert head e).Linked head e := by
    constructor
    · rw [insert_next, Function.update_self]
    · rw [insert_previous hne, Function.update_of_ne hfirst.symm, Function.update_self]
  have hbehind : (m.insert head e).Linked e (m.next head) := by
    constructor
    · rw [insert_next, Function.update_of_ne hne, Function.update_self]
    · rw [insert_previous hne, Function.update_self]
  refine ⟨⟨hlinked, h.seg.relink hbehind ?_ ?_ hxs hhead⟩, ?_⟩
  · intro y hy
    have hy1 : y ≠ head := fun heq => hhead (heq ▸ hy)
    have hy2 : y ≠ e := fun heq => hmem (heq ▸ hy)
    rw [insert_next, Function.update_of_ne hy1, Function.update_of_ne hy2]
  · intro y hy hy1
    have hy2 : y ≠ e := fun heq => he (heq ▸ hy)
    rw [insert_previous hne, Function.update_of_ne hy1, Function.update_of_ne hy2]
  · refine List.nodup_cons.mpr ⟨?_, List.nodup_cons.mpr ⟨hmem, hxs⟩⟩
    exact mt List.mem_cons.mp (not_or.mpr ⟨hne.symm, hhead⟩)

/-! ## Removal -/

theorem remove_next (he : m.next e ≠ e) : (m.remove e).next =
    Function.update (Function.update m.next (m.previous e) (m.next e)) e e := by
  show Function.update (Function.update m.next
    (Function.update m.previous (m.next e) (m.previous e) e) (m.next e)) e e = _
  rw [Function.update_of_ne he.symm]

theorem remove_previous : (m.remove e).previous =
    Function.update (Function.update m.previous (m.next e) (m.previous e)) e e := rfl

theorem detached_remove (he : m.next e ≠ e) : (m.remove e).Detached e := by
  constructor
  · rw [remove_next he, Function.update_self]
  · rw [remove_previous, Function.update_self]

/-- Further calls are harmless. -/
theorem remove_of_detached (h : m.Detached e) : m.remove e = m := by
  obtain ⟨hnext, hprev⟩ := h
  obtain ⟨next, previous⟩ := m
  replace hnext : next e = e := hnext
  replace hprev : previous e = e := hprev
  have hp : Function.update previous e e = previous := Function.update_eq_self_iff.mpr hprev.symm
  have hn : Function.update next e e = next := Function.update_eq_self_iff.mpr hnext.symm
  simp only [Links.remove, hnext, hprev, hp, hn]

omit [DecidableEq ν] in
theorem Links.Seg.next_mem (h : m.Seg a xs b) : m.next a ∈ b :: xs := by
  rw [h.next_eq]
  cases xs with
  | nil => exact List.mem_singleton.mpr rfl
  | cons x xs => exact List.mem_cons_of_mem _ List.mem_cons_self

omit [DecidableEq ν] in
theorem Links.Seg.next_ne (h : m.Seg a xs b) (ha : a ∉ b :: xs) : m.next a ≠ a :=
  fun heq => ha (heq ▸ h.next_mem)

/-- The entry between two segments is bridged. -/
theorem Links.Seg.remove (he : m.next e ≠ e) (h : m.Seg a xs e) (h' : m.Seg e ys b)
    (hnodup : (a :: (xs ++ e :: ys)).Nodup) (hb : b ∉ xs ++ e :: ys) :
    (m.remove e).Seg a (xs ++ ys) b := by
  have hbehind := h'.next_mem
  induction xs generalizing a with
  | nil =>
    obtain ⟨ha, hrest⟩ := List.nodup_cons.mp hnodup
    obtain ⟨hmem, hys⟩ := List.nodup_cons.mp hrest
    obtain ⟨hbe, hbys⟩ := not_or.mp (mt List.mem_cons.mpr hb)
    have hae : a ≠ e := fun heq => ha (heq ▸ List.mem_cons_self)
    have hprev : m.previous e = a := h.2
    refine h'.relink ⟨?_, ?_⟩ ?_ ?_ hys hbys
    · rw [remove_next he, Function.update_of_ne hae, hprev, Function.update_self]
    · rw [remove_previous, Function.update_of_ne he, Function.update_self, hprev]
    · intro y hy
      have hye : y ≠ e := fun heq => hmem (heq ▸ hy)
      have hya : y ≠ m.previous e := by
        rw [hprev]
        exact fun heq => ha (heq ▸ List.mem_cons_of_mem _ hy)
      rw [remove_next he, Function.update_of_ne hye, Function.update_of_ne hya]
    · intro y hy hyn
      have hye : y ≠ e := by
        rintro rfl
        rcases List.mem_cons.mp hy with heq | hy
        · exact hbe heq.symm
        · exact hmem hy
      rw [remove_previous, Function.update_of_ne hye, Function.update_of_ne hyn]
  | cons x xs ih =>
    obtain ⟨hlinked, hseg⟩ := h
    obtain ⟨ha, hrest⟩ := List.nodup_cons.mp hnodup
    obtain ⟨hbx, hb'⟩ := not_or.mp (mt List.mem_cons.mpr hb)
    refine ⟨⟨?_, ?_⟩, ih hseg hrest hb'⟩
    · have hae : a ≠ e := by
        rintro rfl
        exact ha (List.mem_append_right _ List.mem_cons_self)
      have hap : a ≠ m.previous e := by
        rintro rfl
        exact ha (List.mem_append_left (e :: ys) hseg.previous_mem)
      rw [remove_next he, Function.update_of_ne hae, Function.update_of_ne hap]
      exact hlinked.1
    · have hx := (List.nodup_cons.mp hrest).1
      have hxe : x ≠ e := by
        rintro rfl
        exact hx (List.mem_append_right _ List.mem_cons_self)
      have hxn : x ≠ m.next e := by
        intro heq
        rw [← heq] at hbehind
        rcases List.mem_cons.mp hbehind with rfl | hmem
        · exact hbx rfl
        · exact hx (List.mem_append_right _ (List.mem_cons_of_mem _ hmem))
      rw [remove_previous, Function.update_of_ne hxe, Function.update_of_ne hxn]
      exact hlinked.2

omit [DecidableEq ν] in
theorem Links.Ring.next_ne (h : m.Ring head (xs ++ e :: ys)) : m.next e ≠ e := by
  obtain ⟨-, hseg⟩ := seg_append.mp h.seg
  obtain ⟨hhead, hnodup⟩ := List.nodup_cons.mp h.nodup
  refine hseg.next_ne fun hmem => ?_
  rcases List.mem_cons.mp hmem with rfl | hmem
  · exact hhead (List.mem_append_right _ List.mem_cons_self)
  · exact (List.nodup_cons.mp (List.nodup_append.mp hnodup).2.1).1 hmem

theorem Links.Ring.remove (h : m.Ring head (xs ++ e :: ys)) : (m.remove e).Ring head (xs ++ ys) := by
  obtain ⟨hseg, hseg'⟩ := seg_append.mp h.seg
  obtain ⟨hhead, hnodup⟩ := List.nodup_cons.mp h.nodup
  have hsub : (xs ++ ys).Sublist (xs ++ e :: ys) :=
    (List.Sublist.refl xs).append (List.sublist_cons_self e ys)
  exact ⟨hseg.remove h.next_ne hseg' h.nodup hhead, h.nodup.sublist (hsub.cons_cons head)⟩

/-! ## Entries that are in no list -/

/-- A detached entry stays detached when another one is inserted. -/
theorem Links.Detached.insert {y : ν} (hy : m.Detached y) (h : m.Ring head xs)
    (hmem : y ∉ head :: xs) (hye : y ≠ e) (he : e ≠ head) : (m.insert head e).Detached y := by
  have hhead : y ≠ head := fun heq => hmem (heq ▸ List.mem_cons_self)
  have hfirst : y ≠ m.next head := by
    rintro rfl
    rcases List.mem_cons.mp h.seg.next_mem with heq | hnext
    · exact hhead heq
    · exact hmem (List.mem_cons_of_mem _ hnext)
  constructor
  · rw [insert_next, Function.update_of_ne hhead, Function.update_of_ne hye]
    exact hy.1
  · rw [insert_previous he, Function.update_of_ne hfirst, Function.update_of_ne hye]
    exact hy.2

/-- A detached entry stays detached when another one is removed. -/
theorem Links.Detached.remove {y : ν} (hy : m.Detached y) (h : m.Ring head (xs ++ e :: ys))
    (hmem : y ∉ head :: (xs ++ e :: ys)) : (m.remove e).Detached y := by
  obtain ⟨hseg, hseg'⟩ := seg_append.mp h.seg
  have hye : y ≠ e := by
    rintro rfl
    exact hmem (List.mem_cons_of_mem _ (List.mem_append_right _ List.mem_cons_self))
  have hbefore : y ≠ m.previous e := by
    rintro rfl
    rcases List.mem_cons.mp hseg.previous_mem with heq | hprev
    · exact hmem (heq ▸ List.mem_cons_self)
    · exact hmem (List.mem_cons_of_mem _ (List.mem_append_left _ hprev))
  have hbehind : y ≠ m.next e := by
    rintro rfl
    rcases List.mem_cons.mp hseg'.next_mem with heq | hnext
    · exact hmem (heq ▸ List.mem_cons_self)
    · exact hmem (List.mem_cons_of_mem _ (List.mem_append_right _ (List.mem_cons_of_mem _ hnext)))
  constructor
  · rw [remove_next h.next_ne, Function.update_of_ne hye, Function.update_of_ne hbefore]
    exact hy.1
  · rw [remove_previous, Function.update_of_ne hye, Function.update_of_ne hbehind]
    exact hy.2

end CircularList
