import Mathlib.Data.List.TakeWhile

set_option autoImplicit false

/-! # Paths

A path is a list of characters in which a separator stands between the components. Nothing here asks
the components to be non-empty. -/

namespace Path

section Under

variable {α : Type} (sep : α)

/-- `name` lies below the directory `dir`. -/
def Under (dir name : List α) : Prop := (dir ++ [sep]) <+: name

/-- Equal, or one below the other. -/
def Related (s t : List α) : Prop := s = t ∨ Under sep s t ∨ Under sep t s

variable {sep} {s t r dir name : List α}

theorem under_iff : Under sep dir name ↔ ∃ t, name = dir ++ sep :: t := by
  unfold Under
  constructor
  · rintro ⟨t, rfl⟩
    exact ⟨t, by simp⟩
  · rintro ⟨t, rfl⟩
    exact ⟨t, by simp⟩

/-- Reading character by character: first the directory, then a separator. -/
theorem under_iff_take :
    Under sep dir name ↔ name.take dir.length = dir ∧ name[dir.length]? = some sep := by
  rw [under_iff]
  constructor
  · rintro ⟨t, rfl⟩
    simp
  rintro ⟨htake, hsep⟩
  obtain ⟨hlt, hget⟩ := List.getElem?_eq_some_iff.1 hsep
  refine ⟨name.drop (dir.length + 1), ?_⟩
  rw [← hget, ← List.drop_eq_getElem_cons hlt]
  have hsplit := List.take_append_drop dir.length name
  rw [htake] at hsplit
  exact hsplit.symm

theorem Under.ne (h : Under sep dir name) : name ≠ dir := by
  obtain ⟨t, rfl⟩ := under_iff.1 h
  simp

/-- A common directory in front changes nothing. -/
theorem related_append : Related sep (r ++ sep :: s) (r ++ sep :: t) ↔ Related sep s t := by
  have happend : ∀ u : List α, r ++ sep :: u = (r ++ [sep]) ++ u := by simp
  unfold Related Under
  rw [happend s, happend t, List.append_cancel_left_eq, List.append_assoc _ s,
    List.append_assoc _ t, List.prefix_append_right_inj, List.prefix_append_right_inj]

end Under

/-! ## The first component -/

variable {α : Type} [DecidableEq α] (sep : α)

instance (dir name : List α) : Decidable (Under sep dir name) :=
  inferInstanceAs (Decidable ((dir ++ [sep]) <+: name))

instance (s t : List α) : Decidable (Related sep s t) :=
  inferInstanceAs (Decidable (s = t ∨ Under sep s t ∨ Under sep t s))

/-- The first component. -/
def first (s : List α) : List α := s.takeWhile (· ≠ sep)

/-- What follows the first component and its separator, if there is one. -/
def rest (s : List α) : Option (List α) :=
  match s.dropWhile (· ≠ sep) with
  | [] => none
  | _ :: t => some t

/-- No component is empty: neither the first one nor one that follows a separator. -/
def NoEmpty (s : List α) : Prop :=
  first sep s ≠ [] ∧ ∀ k, k < s.length → s[k]? = some sep → first sep (s.drop (k + 1)) ≠ []

instance (s : List α) : Decidable (NoEmpty sep s) := inferInstanceAs (Decidable (_ ∧ _))

variable {sep} {s t r dir name : List α}

theorem NoEmpty.first_ne_nil (h : NoEmpty sep (dir ++ sep :: t)) : first sep t ≠ [] := by
  have hk := h.2 dir.length (by simp) (by simp)
  simpa using hk

theorem sep_notMem_first : sep ∉ first sep s := by
  intro h
  simpa using List.mem_takeWhile_imp h

theorem eq_first (h : rest sep s = none) : s = first sep s := by
  unfold rest at h
  split at h
  · next hd =>
    have hsplit := List.takeWhile_append_dropWhile (p := fun c => decide (c ≠ sep)) (l := s)
    rw [hd, List.append_nil] at hsplit
    exact hsplit.symm
  · cases h

theorem eq_first_append (h : rest sep s = some t) : s = first sep s ++ sep :: t := by
  unfold rest at h
  split at h
  · cases h
  next c r hd =>
  obtain rfl := Option.some.inj h
  have hsplit := List.takeWhile_append_dropWhile (p := fun c => decide (c ≠ sep)) (l := s)
  have hc : c = sep := by
    have hnot := List.head_dropWhile_not (fun c => decide (c ≠ sep)) (l := s) (by rw [hd]; simp)
    simp only [hd, List.head_cons] at hnot
    simpa using hnot
  rw [hd, hc] at hsplit
  exact hsplit.symm

theorem rest_length (h : rest sep s = some t) : t.length < s.length := by
  have hlen := congrArg List.length (eq_first_append h)
  simp only [List.length_append, List.length_cons] at hlen
  omega

/-- What stands behind a separator does not matter for the first component. -/
theorem first_append_sep : first sep (s ++ sep :: t) = first sep s := by
  unfold first
  induction s with
  | nil => simp
  | cons c s ih =>
    by_cases hc : c = sep
    · simp [hc]
    · simpa [hc] using ih

theorem first_of_notMem (h : sep ∉ s) : first sep s = s :=
  List.takeWhile_eq_self_iff.2 (fun _ hc => decide_eq_true (fun he => h (he ▸ hc)))

theorem Under.first_eq (h : Under sep dir name) : first sep name = first sep dir := by
  obtain ⟨t, rfl⟩ := under_iff.1 h
  exact first_append_sep

theorem Related.first_eq (h : Related sep s t) : first sep s = first sep t := by
  rcases h with rfl | h | h
  · rfl
  · exact h.first_eq.symm
  · exact h.first_eq

end Path
