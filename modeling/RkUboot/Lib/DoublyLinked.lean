import Mathlib.Data.List.Basic
import Mathlib.Data.List.Nodup
import Mathlib.Tactic.Common

set_option autoImplicit false

/-! # Segments of doubly linked lists

`Seg next prev p xs q` says that the nodes `xs` are linked in both directions, that the first one
points back to `p` and that the last one points on to `q`. Segments join where their ends meet, so
that a change of one link is a change at the end of a segment. -/

namespace DoublyLinked

variable {ι : Type*}

/-- The nodes `xs` are linked, behind `p` and before `q`. -/
def Seg (next prev : ι → ι) : ι → List ι → ι → Prop
  | _, [], _ => True
  | p, x :: xs, q => prev x = p ∧ next x = xs.headD q ∧ Seg next prev x xs q

variable {next prev next' prev' : ι → ι} {p p' q q' x : ι} {xs ys : List ι}

theorem seg_append :
    Seg next prev p (xs ++ ys) q ↔
      Seg next prev p xs (ys.headD q) ∧ Seg next prev (xs.getLastD p) ys q := by
  induction xs generalizing p with
  | nil => simp [Seg]
  | cons x xs ih =>
    have hhead : (xs ++ ys).headD q = xs.headD (ys.headD q) := by cases xs <;> rfl
    simp only [List.cons_append, Seg, ih, hhead, List.getLastD_cons]
    tauto

/-- A node and the segments before and behind it. -/
theorem seg_middle :
    Seg next prev p (xs ++ x :: ys) q ↔
      Seg next prev p xs x ∧ prev x = xs.getLastD p ∧ next x = ys.headD q ∧ Seg next prev x ys q :=
  seg_append

theorem Seg.congr (h : Seg next prev p xs q) (hnext : ∀ x ∈ xs, next' x = next x)
    (hprev : ∀ x ∈ xs, prev' x = prev x) : Seg next' prev' p xs q := by
  induction xs generalizing p with
  | nil => trivial
  | cons x xs ih =>
    obtain ⟨h1, h2, h3⟩ := h
    refine ⟨?_, ?_, ih h3 (fun y hy => hnext y (.tail _ hy))
      fun y hy => hprev y (.tail _ hy)⟩
    · rw [hprev x (.head _), h1]
    · rw [hnext x (.head _), h2]

/-- The last node points on to another one. -/
theorem Seg.setNext (h : Seg next prev p xs q) (hne : xs ≠ []) (hnodup : xs.Nodup)
    (hlast : next' (xs.getLastD p) = q') (hnext : ∀ x ∈ xs, x ≠ xs.getLastD p → next' x = next x)
    (hprev : ∀ x ∈ xs, prev' x = prev x) : Seg next' prev' p xs q' := by
  obtain ⟨ys, y, rfl⟩ := List.eq_nil_or_concat xs |>.resolve_left hne
  rw [List.concat_eq_append] at *
  have hy : (ys ++ [y]).getLastD p = y := by simp
  rw [hy] at hlast hnext
  have hnot : y ∉ ys := by
    rw [List.nodup_append] at hnodup
    exact fun hmem => hnodup.2.2 y hmem y (.head _) rfl
  rw [seg_middle] at h ⊢
  obtain ⟨hys, hprevy, -, -⟩ := h
  refine ⟨hys.congr (fun x hx => ?_) fun x hx => ?_, ?_, hlast, trivial⟩
  · exact hnext x (List.mem_append_left _ hx) fun heq => hnot (heq ▸ hx)
  · exact hprev x (List.mem_append_left _ hx)
  · rw [hprev y (List.mem_append_right _ (.head _)), hprevy]

/-- The first node points back to another one. -/
theorem Seg.setPrev (h : Seg next prev p (x :: xs) q) (hfirst : prev' x = p')
    (hnext : ∀ y ∈ x :: xs, next' y = next y) (hprev : ∀ y ∈ xs, prev' y = prev y) :
    Seg next' prev' p' (x :: xs) q := by
  obtain ⟨-, h2, h3⟩ := h
  refine ⟨hfirst, ?_, h3.congr (fun y hy => hnext y (.tail _ hy)) hprev⟩
  rw [hnext x (.head _), h2]

end DoublyLinked
