import RkUboot.IdBlock.Update

set_option autoImplicit false

/-! # One retry for a block

`WriteXIDBlock` tries a block that fails once more, and counts it in `write_failed` when the second
attempt fails as well. Which of the two attempts it is at is kept in `retry`, a toggle that only a
failure changes. So a block that its retry has repaired leaves the toggle set, and the next block to
fail, whichever it is, is counted at its first attempt. -/

namespace IdBlock

/-! ## Attempts -/

/-- One round of the loop: the index of the block, whether it was written, and whether `write_failed`
    went up. -/
structure Attempt where
  block : Nat
  ok : Bool
  counted : Bool
  deriving DecidableEq, Repr

/-- What the next round does. -/
def Loop.attempt (job : Job) (s : Loop) : Attempt :=
  ⟨s.i, (writeBlock job s.i s.io).1, decide (s.writeFailed < (s.round job).writeFailed)⟩

/-- The rounds of the `for` loop in order, cut off after `k`. -/
def Loop.attempts (job : Job) : Nat → Loop → List Attempt
  | 0, _ => []
  | k + 1, s => if s.Running job then s.attempt job :: (s.round job).attempts job k else []

/-- The rounds of `WriteXIDBlock`. -/
def attempts (job : Job) (io : Io) : List Attempt :=
  (Loop.start io).attempts job (2 * job.count + 1)

/-- How many attempts at `block` have failed. -/
def failures (block : Nat) (log : List Attempt) : Nat :=
  log.countP (fun a => decide (a.block = block ∧ a.ok = false))

/-- Behind the attempts `before`, a block is counted only when two attempts at it have failed. -/
def CountedTwice (before log : List Attempt) : Prop :=
  ∀ pre a post, log = pre ++ a :: post → a.counted = true →
    2 ≤ failures a.block (before ++ pre ++ [a])

/-- No attempt fails behind a failure that the retry has repaired; all other failures come in pairs,
    but perhaps the last. -/
def RetryClean : List Bool → Bool
  | [] => true
  | true :: rest => RetryClean rest
  | [false] => true
  | false :: false :: rest => RetryClean rest
  | false :: true :: rest => rest.all (fun ok => ok)

section Retry

variable {job : Job} {s : Loop} {before log : List Attempt} {a : Attempt}

theorem failures_append_singleton (block : Nat) :
    failures block (before ++ [a])
      = failures block before + if a.block = block ∧ a.ok = false then 1 else 0 := by
  unfold failures
  rw [List.countP_append, List.countP_singleton]
  simp only [decide_eq_true_eq]

/-- There are no failures of a block that has not been tried. -/
theorem failures_eq_zero {block : Nat} (h : ∀ a ∈ before, a.block < block) :
    failures block before = 0 := by
  refine List.countP_eq_zero.2 (fun a ha hcount => ?_)
  have hlt := h a ha
  have heq := (of_decide_eq_true hcount).1
  omega

theorem countedTwice_nil : CountedTwice before [] := by
  intro pre a post h
  exact absurd h.symm (List.append_ne_nil_of_right_ne_nil pre (List.cons_ne_nil a post))

theorem countedTwice_cons :
    CountedTwice before (a :: log) ↔
      (a.counted = true → 2 ≤ failures a.block (before ++ [a])) ∧
        CountedTwice (before ++ [a]) log := by
  constructor
  · intro h
    refine ⟨fun hcount => ?_, fun pre b post hlog hcount => ?_⟩
    · simpa using h [] a log rfl hcount
    · have := h (a :: pre) b post (by rw [hlog, List.cons_append]) hcount
      simpa using this
  · rintro ⟨hhead, htail⟩ pre b post hlog hcount
    cases pre with
    | nil =>
      obtain ⟨rfl, rfl⟩ := List.cons.inj hlog
      simpa using hhead hcount
    | cons c pre =>
      obtain ⟨rfl, rfl⟩ := List.cons.inj hlog
      simpa using htail pre b post rfl hcount

/-- What a round can do. -/
theorem Loop.round_cases (job : Job) (s : Loop) :
    (s.attempt job = ⟨s.i, true, false⟩ ∧ (s.round job).i = s.i + 1 ∧
        (s.round job).retry = s.retry) ∨
      (s.retry = false ∧ s.attempt job = ⟨s.i, false, false⟩ ∧ (s.round job).i = s.i ∧
        (s.round job).retry = true) ∨
      (s.retry = true ∧ s.attempt job = ⟨s.i, false, true⟩ ∧ (s.round job).i = s.i + 1 ∧
        (s.round job).retry = false) := by
  unfold Loop.attempt Loop.round
  generalize writeBlock job s.i s.io = r
  by_cases hok : r.1 = true
  · simp [hok]
  rw [Bool.not_eq_true] at hok
  cases hretry : s.retry with
  | false => simp [hok]
  | true => simp [hok]

theorem block_lt_of_append {i : Nat} (h : ∀ b ∈ before, b.block ≤ i) (ha : a.block = i) :
    ∀ b ∈ before ++ [a], b.block < i + 1 := by
  intro b hb
  rcases List.mem_append.1 hb with hb | hb
  · exact Nat.lt_succ_of_le (h b hb)
  · rw [List.mem_singleton.1 hb, ha]
    exact Nat.lt_succ_self i

/-- With the toggle left over from another block, no attempt may fail. -/
theorem countedTwice_stale (k : Nat) (hretry : s.retry = true) (hnew : ∀ b ∈ before, b.block < s.i) :
    CountedTwice before (s.attempts job k) ↔
      ((s.attempts job k).map Attempt.ok).all (fun ok => ok) = true := by
  induction k generalizing s before with
  | zero => exact iff_of_true countedTwice_nil rfl
  | succ k ih =>
    rw [Loop.attempts]
    by_cases hrun : s.Running job
    · rw [if_pos hrun, countedTwice_cons, List.map_cons, List.all_cons]
      obtain ⟨ha, hi, hr⟩ | ⟨hr, -⟩ | ⟨-, ha, -⟩ := Loop.round_cases job s
      · -- written: the toggle stays set
        have hle : ∀ b ∈ before, b.block ≤ s.i := fun b hb => (hnew b hb).le
        rw [ih (hr.trans hretry) (by rw [hi]; exact block_lt_of_append hle (by rw [ha])), ha]
        simp
      · cases hretry.symm.trans hr
      -- counted after a single failure
      have hone : failures s.i (before ++ [⟨s.i, false, true⟩]) = 1 := by
        rw [failures_append_singleton, failures_eq_zero hnew]
        simp
      rw [ha]
      simp [hone]
    · rw [if_neg hrun]
      exact iff_of_true countedTwice_nil rfl

/-- From a round on, at the first attempt at a block or at the second one. -/
theorem countedTwice_iff (k : Nat) (hle : ∀ b ∈ before, b.block ≤ s.i)
    (hfresh : s.retry = false → ∀ b ∈ before, b.block < s.i)
    (hsecond : s.retry = true → failures s.i before = 1) :
    CountedTwice before (s.attempts job k) ↔
      RetryClean (if s.retry then false :: (s.attempts job k).map Attempt.ok
        else (s.attempts job k).map Attempt.ok) = true := by
  induction k generalizing s before with
  | zero =>
    rw [Loop.attempts]
    refine iff_of_true countedTwice_nil ?_
    split <;> rfl
  | succ k ih =>
    rw [Loop.attempts]
    by_cases hrun : s.Running job
    · rw [if_pos hrun, countedTwice_cons, List.map_cons]
      obtain ⟨ha, hi, hr⟩ | ⟨hretry, ha, hi, hr⟩ | ⟨hretry, ha, hi, hr⟩ := Loop.round_cases job s
      · have hlt := block_lt_of_append (a := s.attempt job) hle (by rw [ha])
        cases hretry : s.retry with
        | false =>
          -- written at the first attempt
          rw [ih (by rw [hi]; exact fun b hb => (hlt b hb).le) (fun _ => by rw [hi]; exact hlt)
            (fun h => nomatch (h.symm.trans (hr.trans hretry))), hr, hretry, ha]
          simp [RetryClean]
        | true =>
          -- repaired: the toggle is now left over
          rw [countedTwice_stale k (hr.trans hretry) (by rw [hi]; exact hlt), ha]
          simp [RetryClean]
      · -- the first failure of the block
        have hone : failures s.i (before ++ [s.attempt job]) = 1 := by
          rw [failures_append_singleton, failures_eq_zero (hfresh hretry), ha]
          simp
        have hlt := block_lt_of_append (a := s.attempt job) hle (by rw [ha])
        rw [ih (by rw [hi]; exact fun b hb => Nat.le_of_lt_succ (hlt b hb))
          (fun h => nomatch (hr.symm.trans h)) (fun _ => by rw [hi]; exact hone), hr,
          hretry, ha]
        simp
      · -- the second one
        have htwo : failures s.i (before ++ [s.attempt job]) = 2 := by
          rw [failures_append_singleton, hsecond hretry, ha]
          simp
        have hlt := block_lt_of_append (a := s.attempt job) hle (by rw [ha])
        rw [ih (by rw [hi]; exact fun b hb => (hlt b hb).le) (fun _ => by rw [hi]; exact hlt)
          (fun h => nomatch (hr.symm.trans h)), hr, hretry]
        rw [ha] at htwo ⊢
        simp [htwo, RetryClean]
    · rw [if_neg hrun]
      refine iff_of_true countedTwice_nil ?_
      split <;> rfl

/-- **One retry for every block.** `WriteXIDBlock` ends; and blocks are counted as failed only after
    two failed attempts exactly if no attempt fails once a block was repaired by its retry. -/
theorem writeXIDBlock_retry_iff (job : Job) (io : Io) :
    (writeXIDBlock job io).isSome ∧
      (CountedTwice [] (attempts job io) ↔ RetryClean ((attempts job io).map Attempt.ok) = true) := by
  constructor
  · obtain ⟨s, hrun, -⟩ := Loop.run_invariant (I := fun _ => True) (fun _ _ _ => trivial) _
      (Nat.le_refl ((Loop.start io).rank job)) trivial
    rw [writeXIDBlock, show Loop.run job (2 * job.count + 1) _ = _ from hrun]
    rfl
  have hnone : ∀ b ∈ ([] : List Attempt), b.block < (Loop.start io).i :=
    fun b hb => absurd hb List.not_mem_nil
  exact countedTwice_iff _ (fun b hb => (hnone b hb).le) (fun _ => hnone)
    (fun h => absurd h Bool.false_ne_true)

/-- Three blocks of one sector. -/
def threeBlocks : Job := ⟨[2, 3, 4], 32, fun _ => 1, 1⟩

/-- The erase of the first block fails once, and so does the one of the second. -/
def twoFailures : Io :=
  ⟨fun _ => [], [.fail (fun _ => []), .ok, .ok, .ok, .fail (fun _ => [])], []⟩

/-- The first block is repaired by its retry, and then the second one is counted as failed after one
    attempt. -/
theorem writeXIDBlock_no_retry :
    attempts threeBlocks twoFailures
      = [⟨0, false, false⟩, ⟨0, true, false⟩, ⟨1, false, true⟩, ⟨2, true, false⟩] ∧
      ¬ CountedTwice [] (attempts threeBlocks twoFailures) := by
  have hlog : attempts threeBlocks twoFailures
      = [⟨0, false, false⟩, ⟨0, true, false⟩, ⟨1, false, true⟩, ⟨2, true, false⟩] := by
    decide +kernel
  refine ⟨hlog, fun h => ?_⟩
  have := h [⟨0, false, false⟩, ⟨0, true, false⟩] ⟨1, false, true⟩ [⟨2, true, false⟩] hlog rfl
  exact absurd this (by decide)

end Retry

end IdBlock
