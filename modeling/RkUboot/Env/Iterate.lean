import RkUboot.Env.HashTable

set_option autoImplicit false

/-! # Going over the entries with a prefix (`lib/hashtable.c`)

`hmatch_r` gives the next slot behind `last_idx` whose key starts with a text, and 0 if there is none;
a caller starts with 0 and goes on from what it got. The loop of `hmatch_r` ends before slot `size`.
The slots are numbered from 1 to `size`, and a search that steps back from a slot `hval2` gets to slot
`size`, so there may be an entry there. The other loops over the table go up to `size`. -/

namespace HashTable

open OpenAddress

/-! ## The loops -/

/-- `strncmp(match, key, strlen(match)) == 0` for the key of a slot that is in use. -/
def slotMatches (pat : Str) (htab : Htab) (idx : Nat) : Bool :=
  match htab.table idx with
  | .live key _ => decide (pat <+: key)
  | _ => false

/-- The loop of `hmatch_r`, with `n` slots left. -/
def matchLoop (pat : Str) (htab : Htab) : Nat → Nat → Nat
  | 0, _ => 0
  | n + 1, idx => if slotMatches pat htab idx then idx else matchLoop pat htab n (idx + 1)

/-- Model of `hmatch_r`: the slot that it returns. -/
def hmatchR (pat : Str) (lastIdx : Nat) (htab : Htab) : Nat :=
  matchLoop pat htab (htab.size - (lastIdx + 1)) (lastIdx + 1)

/-- `while ((idx = hmatch_r(match, idx, ...)))`: the slots that are seen, if the loop ends within `n`
    calls. -/
def visits (pat : Str) (htab : Htab) : Nat → Nat → Option (List Nat)
  | 0, _ => none
  | n + 1, idx =>
    let idx := hmatchR pat idx htab
    if idx = 0 then some [] else (visits pat htab n idx).map (idx :: ·)

theorem slotMatches_iff {pat : Str} {htab : Htab} {idx : Nat} :
    slotMatches pat htab idx = true ↔ ∃ key e, htab.table idx = .live key e ∧ pat <+: key := by
  unfold slotMatches
  cases htab.table idx with
  | free => simp
  | deleted => simp
  | live key e => simp

/-- The slots that are seen: those below `size` that match, in their order. -/
theorem visits_eq (pat : Str) (htab : Htab) (n a calls : Nat) (hn : a + 1 + n = htab.size)
    (hcalls : n < calls) :
    visits pat htab calls a = some ((List.range' (a + 1) n).filter (slotMatches pat htab)) := by
  -- One call may pass many slots, so the induction is on the slots that are left.
  suffices hfrom : ∀ n a calls, a + n = htab.size → n < calls → 0 < a →
      (let idx := matchLoop pat htab n a
        if idx = 0 then some [] else (visits pat htab (calls - 1) idx).map (idx :: ·)) =
        some ((List.range' a n).filter (slotMatches pat htab)) by
    obtain ⟨calls, rfl⟩ : ∃ c, calls = c + 1 := ⟨calls - 1, by omega⟩
    have := hfrom n (a + 1) (calls + 1) hn hcalls (Nat.succ_pos a)
    rw [visits, hmatchR, show htab.size - (a + 1) = n by omega]
    exact this
  intro n
  induction n with
  | zero => intro a calls _ _ _; rfl
  | succ n ih =>
    intro a calls hn hcalls ha
    rw [List.range'_succ, matchLoop]
    by_cases hit : slotMatches pat htab a = true
    · rw [if_pos hit, List.filter_cons_of_pos hit]
      rw [if_neg (by omega)]
      obtain ⟨calls, rfl⟩ : ∃ c, calls = c + 2 := ⟨calls - 2, by omega⟩
      have hrest := ih (a + 1) (calls + 1) (by omega) (by omega) (Nat.succ_pos a)
      rw [show calls + 2 - 1 = calls + 1 from rfl, visits, hmatchR,
        show htab.size - (a + 1) = n by omega]
      rw [show calls + 1 - 1 = calls from rfl] at hrest
      rw [hrest]
      rfl
    · rw [if_neg hit, List.filter_cons_of_neg hit]
      exact ih (a + 1) calls (by omega) (by omega) (Nat.succ_pos a)

/-! ## Reachable tables -/

section Reachable

variable {htab : Htab} {key data : Str}

theorem Sound.size_pos (hok : Sound htab) : 0 < htab.size := by
  rcases hok.sizeOk.cases with hone | ⟨-, h5⟩ <;> omega

/-- An entry is in one of the slots from 1 to `size`. -/
theorem Sound.slot_range (hok : Sound htab) {i : Nat} {e : Entry} (h : htab.table i = .live key e) :
    1 ≤ i ∧ i ≤ htab.size := by
  obtain ⟨t, ht, rfl, -⟩ := hok.ok.reach i key e h
  exact path_slot key hok.sizeOk ht

/-- `ENTER` in a table of several slots, also if it takes the slot of another key. -/
theorem Sound.enter (hok : Sound htab) (h5 : 5 ≤ htab.size) (key data : Str) :
    Sound (hsearchR key (.enter data) htab).2.2 ∧
      (hsearchR key (.enter data) htab).2.2.size = htab.size := by
  rcases search_cases (.enter data) key hok with ⟨idx, e, he, hrun⟩ | ⟨j, hle, hpassed, hstop, hrun⟩
  · obtain ⟨t, ht, rfl, hbefore⟩ := hok.ok.reach idx key e he
    have hother : ∀ i e', htab.table i = .live key e' → i = htab.path key t := fun i e' hi =>
      hok.ok.unique i _ key e' e hi he
    have hput : Sound (htab.put key data _ htab.filled) := hok.put hother ht rfl hbefore htab.filled
    simp only [hsearchR, hrun, overwrite]
    rw [hok.used _ _ _ he]
    exact ⟨hput, trivial⟩
  · have habsent := hok.absent hle hpassed hstop
    have hsize := hok.size_pos
    simp only [hsearchR, hrun]
    split
    · exact ⟨hok, rfl⟩
    refine ⟨?_, rfl⟩
    -- The new slot is on the path of the key, before its end.
    obtain ⟨t, ht, hpath, hbefore⟩ : ∃ t, t < htab.size ∧
        htab.path key t = newSlot key htab (htab.path key j) ∧
        ∀ l < t, (htab.table (htab.path key l)).isFree = false := by
      unfold newSlot
      split
      · exact ⟨0, hsize, rfl, fun l hl => absurd hl (Nat.not_lt_zero l)⟩
      rcases Nat.lt_or_eq_of_le hle with hlt | rfl
      · exact ⟨j, hlt, rfl, fun l hl => (hpassed l hl).1⟩
      · refine ⟨0, hsize, ?_, fun l hl => absurd hl (Nat.not_lt_zero l)⟩
        rw [path_period key h5 hok.sizeOk.lt]
        rfl
    exact hok.put (fun i e hi => other_of_absent habsent hi) ht hpath hbefore _

/-- What every call keeps: the searches find their way, and in a table of one slot the count is
    right. -/
def Searchable (s : Session) : Prop := Sound s.htab ∧ (s.htab.size = 1 → Consistent s.htab)

theorem hasRoom_of_one (hok : Consistent htab) (hone : htab.size = 1) (key : Str) :
    HasRoom htab key := by
  have hval := (path_of_one key hone).1
  unfold HasRoom
  rw [hval]
  cases hlive : (htab.table 1).isLive with
  | false => exact .inr (.inr (.inl rfl))
  | true =>
    refine .inr (.inr (.inr ?_))
    rw [hok.filled, count_eq_iff, hone]
    intro i h1 hn
    obtain rfl : i = 1 := by omega
    exact hlive

theorem searchable_step (s : Session) (op : Op) (h : Searchable s) : Searchable (step s op) := by
  obtain ⟨hok, hone⟩ := h
  cases op with
  | enter key data =>
    rcases hok.sizeOk.cases with h1 | ⟨-, h5⟩
    · have hcons := (enter_spec data (hone h1) (hasRoom_of_one (hone h1) h1 key)).1
      exact ⟨hcons.toSound, fun _ => hcons⟩
    obtain ⟨hput, hsize⟩ := hok.enter h5 key data
    refine ⟨hput, fun h1 => ?_⟩
    change (hsearchR key (.enter data) s.htab).2.2.size = 1 at h1
    omega
  | find key =>
    simp only [Searchable, step, Op.run, hsearchR_find key hok]
    exact ⟨hok, hone⟩
  | delete key =>
    rcases hdeleteR_cases hok key with ⟨idx, e, -, -, -, hdelete, hsound⟩ | ⟨-, hdelete⟩
    · refine ⟨hsound, fun h1 => ?_⟩
      change (hdeleteR key s.htab).2.size = 1 at h1
      rw [hdelete] at h1
      exact (delete_spec (hone h1) key).1
    · simp only [Searchable, step, Op.run, hdelete]
      exact ⟨hok, hone⟩

/-- Every table that calls lead to can be searched. -/
theorem searchable_run {k nel : Nat} (hcreate : hcreateR k nel = some htab) (ops : List Op) :
    Searchable (ops.foldl step ⟨htab, []⟩) := by
  have hstart : Searchable ⟨htab, []⟩ :=
    ⟨(faithful_start hcreate).1.toSound, fun _ => (faithful_start hcreate).1⟩
  exact List.foldlRecOn ops step hstart fun s h op _ => searchable_step s op h

/-- **What `hmatch_r` goes over.** In every table that calls of `hsearch_r` and `hdelete_r` lead to,
    and for every prefix: the loop ends, and it sees every entry with the prefix exactly once if and
    only if no such entry is in slot `size`. -/
theorem visits_all_iff {k nel : Nat} (hcreate : hcreateR k nel = some htab) (ops : List Op)
    (pat : Str) :
    ∃ seen, visits pat (ops.foldl step ⟨htab, []⟩).htab (ops.foldl step ⟨htab, []⟩).htab.size 0
        = some seen ∧
      ((seen.Nodup ∧ ∀ i, i ∈ seen ↔
          ∃ key e, (ops.foldl step ⟨htab, []⟩).htab.table i = .live key e ∧ pat <+: key) ↔
        ∀ key e, (ops.foldl step ⟨htab, []⟩).htab.table (ops.foldl step ⟨htab, []⟩).htab.size
          = .live key e → ¬ pat <+: key) := by
  obtain ⟨hok, -⟩ := searchable_run hcreate ops
  generalize (ops.foldl step ⟨htab, []⟩).htab = t at hok ⊢
  have hsize := hok.size_pos
  refine ⟨_, visits_eq pat t (t.size - 1) 0 t.size (by omega) (by omega), ?_⟩
  have hmem : ∀ i, i ∈ (List.range' (0 + 1) (t.size - 1)).filter (slotMatches pat t) ↔
      i ≠ t.size ∧ ∃ key e, t.table i = .live key e ∧ pat <+: key := by
    intro i
    rw [List.mem_filter, List.mem_range'_1, slotMatches_iff]
    constructor
    · rintro ⟨hrange, hentry⟩
      exact ⟨by omega, hentry⟩
    · rintro ⟨hne, key, e, hlive, hprefix⟩
      have := hok.slot_range hlive
      exact ⟨by omega, key, e, hlive, hprefix⟩
  constructor
  · rintro ⟨-, hall⟩ key e hlive hprefix
    have := (hall t.size).mpr ⟨key, e, hlive, hprefix⟩
    exact ((hmem t.size).mp this).1 rfl
  intro hlast
  refine ⟨List.Nodup.filter _ List.nodup_range', fun i => ?_⟩
  rw [hmem]
  constructor
  · exact And.right
  rintro ⟨key, e, hlive, hprefix⟩
  refine ⟨?_, key, e, hlive, hprefix⟩
  rintro rfl
  exact hlast key e hlive hprefix

/-- Two keys with the same first slot: both are seen. -/
theorem visits_all_two :
    ∃ seen, visits [] ([Op.enter [98] [1], .enter [103] [2]].foldl step ⟨fiveSlots, []⟩).htab 5 0
        = some seen ∧ seen.Nodup ∧ ∀ i, i ∈ seen ↔
          ∃ key e, ([Op.enter [98] [1], .enter [103] [2]].foldl step ⟨fiveSlots, []⟩).htab.table i
            = .live key e ∧ [] <+: key := by
  obtain ⟨seen, hseen, hall⟩ := visits_all_iff (show hcreateR 1 5 = some fiveSlots from rfl)
    [.enter [98] [1], .enter [103] [2]] []
  refine ⟨seen, hseen, hall.mpr ?_⟩
  intro key e hlive
  nomatch hlive

/-- The third one, `l`, gets to slot 5, and is not seen. -/
theorem visits_misses_third :
    hcreateR 1 5 = some fiveSlots ∧
    findData [108] ([Op.enter [98] [1], .enter [103] [2], .enter [108] [3]].foldl step
      ⟨fiveSlots, []⟩).htab = some [3] ∧
    visits [] ([Op.enter [98] [1], .enter [103] [2], .enter [108] [3]].foldl step
      ⟨fiveSlots, []⟩).htab 5 0 = some [2, 4] := by
  refine ⟨rfl, ?_, ?_⟩ <;> decide

end Reachable

end HashTable
