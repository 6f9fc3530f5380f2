import RkUboot.OpteeMem.Live

set_option autoImplicit false

/-! # What the blocks hold

`my_malloc` and `my_free` clear the pages whose flags they change. So the owner of a block finds it
clear, and then what was written there, whatever is handed out and taken back around it. -/

namespace OpteeMem

/-- The system, and the memory as the owners of the blocks expect it. -/
structure Shared where
  sys : System
  expected : Mem

/-- A request to the allocator, or a byte written anywhere in the memory. -/
inductive Use where
  | request (a : Action)
  | write (x : Nat) (v : UInt8)

/-- A new block is expected to be clear, and nothing is expected of a block that is taken back. -/
def Shared.expect (u : Shared) : Action → Mem
  | .malloc size =>
    let addr := (myMalloc size u.sys.st).1
    if addr = 0 then u.expected else u.expected.fill addr 0 (4096 * numPages size)
  | .free _ => u.expected

def use (u : Shared) : Use → Shared
  | .request a => ⟨step u.sys a, u.expect a⟩
  | .write x v =>
    ⟨{ u.sys with st := { u.sys.st with ram := u.sys.st.ram.set8 x v } }, u.expected.set8 x v⟩

def UseOk (u : Shared) : Use → Prop
  | .request a => Legal u.sys a ∧ Fits u.sys a
  | .write _ _ => True

instance (u : Shared) : (a : Use) → Decidable (UseOk u a)
  | .request a => inferInstanceAs (Decidable (Legal u.sys a ∧ Fits u.sys a))
  | .write _ _ => .isTrue trivial

/-- The live blocks hold what their owners expect. -/
def Agrees (u : Shared) : Prop :=
  ∀ b ∈ u.sys.live, ∀ x, b.addr ≤ x → x < b.addr + 4096 * b.pages → u.sys.st.ram x = u.expected x

/-! ## What is cleared -/

theorem setPages_ram (v : UInt8) (n i : Nat) (s : State) (h : i + n ≤ 2 ^ 20) :
    (setPages v n i s).ram = s.ram.fill (s.myMemStart + 4096 * i) 0 (4096 * n) := by
  induction n generalizing i s with
  | zero =>
    funext x
    exact (Mem.fill_apply_out (by omega)).symm
  | succ n ih =>
    have hmod : i * 4096 % 2 ^ 32 = 4096 * i := by omega
    rw [setPages, ih _ _ (by omega)]
    dsimp only
    rw [hmod]
    funext x
    by_cases hin : s.myMemStart + 4096 * i ≤ x ∧ x < s.myMemStart + 4096 * i + 4096 * (n + 1)
    · rw [Mem.fill_apply_in hin.1 hin.2]
      by_cases hfirst : x < s.myMemStart + 4096 * i + 4096
      · rw [Mem.fill_apply_out (by omega), Mem.fill_apply_in hin.1 hfirst]
      · rw [Mem.fill_apply_in (by omega) (by omega)]
    · rw [Mem.fill_apply_out (by omega), Mem.fill_apply_out (by omega), Mem.fill_apply_out (by omega)]

variable {start count : Nat} {s : System} {b : Block} {u : Shared}

/-- Pages without a flag are in no live block. -/
theorem Inv.fill_apply (h : Inv start count s) (hb : b ∈ s.live) {x i n : Nat} (hx : b.addr ≤ x)
    (hx' : x < b.addr + 4096 * b.pages) (hfree : ∀ p, i ≤ p → p < i + n → s.st.myFlag p = 0)
    (m : Mem) : m.fill (start + 4096 * i) 0 (4096 * n) x = m x := by
  apply Mem.fill_apply_out
  by_contra hin
  obtain ⟨haddr, hplaced⟩ := h.placed b hb
  have hown : b.Owns start ((x - start) / 4096) := ⟨by omega, by omega⟩
  exact (h.flags _ (by omega)).2 ⟨b, hb, hown⟩ (hfree _ (by omega) (by omega))

theorem Agrees.malloc (ha : Agrees u) (h : Inv start count u.sys) (hstart : 0 < start)
    (hcount : count < 2 ^ 20) {size : Nat} (hfits : Fits u.sys (.malloc size)) :
    Agrees (use u (.request (.malloc size))) := by
  have hres := myMalloc_result u.sys.st size (by rw [h.myCount]; omega) hfits
  obtain ⟨num, hnum⟩ : ∃ num, numPages size = num := ⟨_, rfl⟩
  rw [h.myCount, hnum] at hres
  obtain ⟨acc, -, hnone | ⟨p, hp, hfree, hsome⟩⟩ := hres
  · simp only [use, step, System.granted, Shared.expect, hnone, if_pos]
    exact ha
  have haddr : (allocate num p (touch acc u.sys.st)).1 = start + 4096 * p := by
    have hmod : p * 4096 % 2 ^ 32 = 4096 * p := by omega
    rw [allocate_addr, hmod, ← h.memStart]
    rfl
  have hram : (allocate num p (touch acc u.sys.st)).2.ram =
      u.sys.st.ram.fill (start + 4096 * p) 0 (4096 * num) := by
    rw [← h.memStart]
    exact setPages_ram 1 num p (touch acc u.sys.st) (by omega)
  simp only [use, step, System.granted, Shared.expect, hsome, haddr, hnum]
  rw [if_neg (by omega), if_neg (by omega)]
  intro b hb x hx hx'
  dsimp only
  rw [hram]
  rcases List.mem_cons.1 hb with rfl | hb
  · simp only [Block.pages, hnum] at hx hx'
    rw [Mem.fill_apply_in hx hx', Mem.fill_apply_in hx hx']
  · rw [h.fill_apply hb hx hx' hfree, h.fill_apply hb hx hx' hfree]
    exact ha b hb x hx hx'

theorem myFree_cases (ptr : Nat) (s : State) : (myFree ptr s).ram = s.ram ∨
    ∃ num page, 0 < num ∧ myFree ptr s =
      setPages 0 num page { s with allocFlags := freeUsedblock ptr s.allocFlags } := by
  unfold myFree
  dsimp only
  split
  · exact .inl rfl
  split
  · exact .inl rfl
  · exact .inr ⟨_, _, numPages_pos _, rfl⟩

/-- The pages that are cleared have no flag any more, so they are in no block that is still live. -/
theorem Agrees.free (ha : Agrees u) (h : Inv start count u.sys) (hcount : count < 2 ^ 20) {ptr : Nat}
    (h' : Inv start count (step u.sys (.free ptr))) : Agrees (use u (.request (.free ptr))) := by
  intro b hb x hx hx'
  show (myFree ptr u.sys.st).ram x = u.expected x
  rw [← ha b (List.mem_of_mem_eraseP hb) x hx hx']
  rcases myFree_cases ptr u.sys.st with hkept | ⟨num, page, hpos, hpages⟩
  · rw [hkept]
  have hlast : page + num - 1 < count := by
    apply h'.accessed
    show _ ∈ (myFree ptr u.sys.st).accessed
    rw [hpages, mem_setPages_accessed]
    omega
  rw [hpages, setPages_ram 0 num page _ (by omega)]
  dsimp only
  rw [h.memStart]
  refine h'.fill_apply hb hx hx' (fun p hp hp' => ?_) _
  show (myFree ptr u.sys.st).myFlag p = 0
  rw [hpages, setPages_myFlag, Mem.fill_apply_in hp hp']

/-- **A block holds zeros and what is written into it.** In every run of requests and writes from a
    new pool, with live blocks freed and the limits respected, each live block holds zeros but for
    the bytes written since it was handed out. -/
theorem blocks_hold_expected (start size : Nat) (heap ram : Mem) (hstart : 0 < start)
    (hsize : size < 2 ^ 32) (us : List Use)
    (h : Run.Along use UseOk ⟨initial start size heap ram, ram⟩ us) :
    Agrees (us.foldl use ⟨initial start size heap ram, ram⟩) := by
  refine (Run.along_invariant (I := fun u => Inv start (size / 4096) u.sys ∧ Agrees u) ?_ us _
    ⟨initial_inv start size heap ram, by simp [Agrees, initial]⟩ h).2
  rintro u (a | ⟨x, v⟩) ⟨hinv, ha⟩ hok
  · have hinv' := hinv.step hstart (by omega) a hok.1 hok.2
    refine ⟨hinv', ?_⟩
    cases a with
    | malloc size => exact ha.malloc hinv hstart (by omega) hok.2
    | free ptr => exact ha.free hinv (by omega) hinv'
  · refine ⟨{ hinv with }, fun b hb y hy hy' => ?_⟩
    show (u.sys.st.ram.set8 x v) y = (u.expected.set8 x v) y
    rw [Mem.set8_apply, Mem.set8_apply, ha b hb y hy hy']

/-- A page is written, given back and handed out again. -/
theorem blocks_hold_expected_again :
    Agrees ([Use.request (.malloc 1), .write 8200 7, .request (.free 8192),
      .request (.malloc 1)].foldl use ⟨initial 8192 16384 Mem.zero Mem.zero, Mem.zero⟩) :=
  blocks_hold_expected 8192 16384 _ _ (by decide) (by decide) _ (by decide +kernel)

end OpteeMem
