import RkUboot.OpteeMem.Basic

set_option autoImplicit false

/-! # Which block is handed out

`my_malloc` tries the pages in order and takes the first one that starts a run of free pages, but
the loop ends one page early: `i < my_count - num` leaves out the run at the end of the pool. So the
search is the one for the lowest run unless that run is the last one there is room for. -/

namespace OpteeMem

/-- The `num` pages from `p` are free. -/
def Free (s : State) (num p : Nat) : Prop := ∀ x, p ≤ x → x < p + num → s.myFlag x = 0

/-- There is a run of `num` free pages of the pool at `p`. -/
def FreeRun (s : State) (num p : Nat) : Prop := p + num ≤ s.myCount ∧ Free s num p

variable (num : Nat) (s : State)

theorem countFree_of_free (flag : Mem) (i n j : Nat)
    (h : ∀ x, j ≤ x → x < j + n → flag (i + x) = 0) : countFree flag i n j = j + n := by
  induction n generalizing j with
  | zero => rfl
  | succ n ih =>
    rw [countFree, if_neg (not_not.2 (h j le_rfl (by omega))),
      ih (j + 1) (fun x hx hx' => h x (by omega) (by omega))]
    omega

/-- The inner loop runs to its end exactly at a run of free pages. -/
theorem countFree_eq_iff (i : Nat) : countFree s.myFlag i num 0 = num ↔ Free s num i := by
  constructor
  · intro h x hx hx'
    obtain ⟨-, hfree⟩ := countFree_spec num i s.myFlag 0
    have hz := hfree (x - i) (Nat.zero_le _) (by omega)
    rwa [Nat.add_sub_cancel' hx] at hz
  · intro h
    have hcount := countFree_of_free s.myFlag i num 0 (fun x _ hx => h (i + x) (by omega) (by omega))
    rwa [Nat.zero_add] at hcount

/-- One round of the search: a block at page `i`, or the search from the next page on. -/
theorem search_succ (hnum : 0 < num) (n i : Nat) :
    (Free s num i ∧ (search num (n + 1) i s).1 = s.myMemStart + i * 4096 % 2 ^ 32) ∨
      (¬ Free s num i ∧ ∃ acc, search num (n + 1) i s = search num n (i + 1) (touch acc s)) := by
  have hcount := countFree_eq_iff num s i
  rw [search]
  simp only
  split
  · split
    · next hj => exact .inl ⟨hcount.1 hj, allocate_addr ..⟩
    · next hj =>
      rw [touch_touch]
      exact .inr ⟨fun hfree => hj (hcount.2 hfree), _, rfl⟩
  · next hz =>
    exact .inr ⟨fun hfree => hz (hfree i le_rfl (by omega)), [i], rfl⟩

theorem search_none (hnum : 0 < num) (n i : Nat)
    (h : ∀ p, i ≤ p → p < i + n → ¬ Free s num p) : (search num n i s).1 = 0 := by
  induction n generalizing i s with
  | zero => rfl
  | succ n ih =>
    rcases search_succ num s hnum n i with ⟨hfree, -⟩ | ⟨-, acc, hnext⟩
    · exact absurd hfree (h i le_rfl (by omega))
    · rw [hnext]
      exact ih (touch acc s) (i + 1) (fun p hp hp' => h p (by omega) (by omega))

theorem search_first (hnum : 0 < num) (n i p : Nat) (hi : i ≤ p) (hp : p < i + n)
    (hfree : Free s num p) (hfirst : ∀ q, i ≤ q → q < p → ¬ Free s num q) :
    (search num n i s).1 = s.myMemStart + p * 4096 % 2 ^ 32 := by
  induction n generalizing i s with
  | zero => omega
  | succ n ih =>
    rcases search_succ num s hnum n i with ⟨hfree', haddr⟩ | ⟨hnot, acc, hnext⟩
    · have hp' : p = i := by
        by_contra hne
        exact hfirst i le_rfl (by omega) hfree'
      rw [haddr, hp']
    · have hne : i ≠ p := by
        rintro rfl
        exact hnot hfree
      rw [hnext]
      exact ih (touch acc s) (i + 1) (by omega) (by omega) hfree
        (fun q hq hq' => hfirst q (by omega) hq')

/-- The lowest run of free pages, if there is one. -/
theorem exists_lowest {p : Nat} (h : FreeRun s num p) :
    ∃ q, q ≤ p ∧ FreeRun s num q ∧ ∀ r, r < q → ¬ FreeRun s num r := by
  classical
  have hex : ∃ p, FreeRun s num p := ⟨p, h⟩
  exact ⟨Nat.find hex, Nat.find_min' hex h, Nat.find_spec hex, fun r hr => Nat.find_min hex hr⟩

/-- **For every state of the page flags and every size of at most as many pages as the pool has,
    `my_malloc` returns a null pointer exactly when there is no run of free pages, and the lowest
    run otherwise, if and only if that lowest run is not at the very end of the pool.** -/
theorem myMalloc_complete_iff (hstart : 0 < s.myMemStart) (hcount : s.myCount < 2 ^ 20) (size : Nat)
    (hsize : size < 2 ^ 32) (hnum : num = (size + 4095) / 4096) (hpos : 1 ≤ num)
    (hfits : num ≤ s.myCount) :
    (((myMalloc size s).1 = 0 ↔ ¬ ∃ p, FreeRun s num p) ∧
      ∀ p, FreeRun s num p → (∀ q, q < p → ¬ FreeRun s num q) →
        (myMalloc size s).1 = s.myMemStart + 4096 * p) ↔
    (FreeRun s num (s.myCount - num) → ∃ p, p < s.myCount - num ∧ FreeRun s num p) := by
  have hpages : numPages size = num := by
    unfold numPages
    omega
  have hbound : (s.myCount + 2 ^ 32 - num) % 2 ^ 32 = s.myCount - num := by omega
  rw [myMalloc, hpages, hbound]
  clear hnum hpages hbound
  -- a run the loop gets to
  have hreached : ∀ p, p < s.myCount - num → FreeRun s num p → (∀ q, q < p → ¬ FreeRun s num q) →
      (search num (s.myCount - num) 0 s).1 = s.myMemStart + 4096 * p := by
    intro p hp hrun hfirst
    rw [search_first num s hpos _ 0 p (Nat.zero_le p) (by omega) hrun.2
      (fun q _ hq hfree => hfirst q hq ⟨by omega, hfree⟩)]
    omega
  constructor
  · rintro ⟨hnull, -⟩ hlast
    by_contra hnone
    have hzero := search_none num s hpos (s.myCount - num) 0
      (fun p _ hp hfree => hnone ⟨p, by omega, by omega, hfree⟩)
    exact hnull.1 hzero ⟨_, hlast⟩
  · intro hcond
    -- the lowest run is one the loop gets to
    have hlow : ∀ p, FreeRun s num p → (∀ q, q < p → ¬ FreeRun s num q) → p < s.myCount - num := by
      intro p hrun hfirst
      have hle := hrun.1
      by_contra hge
      obtain rfl : p = s.myCount - num := by omega
      obtain ⟨q, hq, hrun'⟩ := hcond hrun
      exact hfirst q hq hrun'
    refine ⟨⟨?_, ?_⟩, fun p hrun hfirst => hreached p (hlow p hrun hfirst) hrun hfirst⟩
    · rintro hzero ⟨p, hrun⟩
      obtain ⟨q, -, hrun', hfirst⟩ := exists_lowest num s hrun
      have haddr := hreached q (hlow q hrun' hfirst) hrun' hfirst
      omega
    · intro hnone
      exact search_none num s hpos _ 0 (fun p _ hp hfree => hnone ⟨p, by omega, hfree⟩)

/-- A pool of four pages of which the first is handed out. -/
def onePageTaken : State := (myMalloc 1 (myMallocInit 8192 16384 Mem.zero Mem.zero)).2

/-- The next block of two pages is the one at page 1. -/
theorem myMalloc_complete_iff_second_page : (myMalloc 5000 onePageTaken).1 = 8192 + 4096 * 1 := by
  have hfree : ∀ p, 1 ≤ p → p ≤ 2 → FreeRun onePageTaken 2 p := by
    intro p hp hp'
    have hflags : ∀ x, x < 4 → 1 ≤ x → onePageTaken.myFlag x = 0 := by decide +kernel
    have hcount : onePageTaken.myCount = 4 := by decide +kernel
    refine ⟨by omega, fun x hx hx' => hflags x (by omega) (by omega)⟩
  refine ((myMalloc_complete_iff 2 onePageTaken (by decide +kernel) (by decide +kernel) 5000
    (by decide) (by decide) (by decide) (by decide +kernel)).2
      (fun _ => ⟨1, by decide +kernel, hfree 1 (by decide) (by decide)⟩)).2 1
        (hfree 1 (by decide) (by decide)) ?_
  intro q hq hrun
  obtain rfl : q = 0 := by omega
  exact absurd (hrun.2 0 le_rfl (by decide)) (by decide +kernel)

/-- A pool of two free pages has no block of two pages. -/
theorem myMalloc_misses_last_run :
    FreeRun (myMallocInit 8192 8192 Mem.zero Mem.zero) 2 0 ∧
      (myMalloc 8192 (myMallocInit 8192 8192 Mem.zero Mem.zero)).1 = 0 := by
  refine ⟨⟨by decide, ?_⟩, by decide +kernel⟩
  intro x _ hx
  exact Mem.fill_apply_in (Nat.zero_le x) hx

end OpteeMem
