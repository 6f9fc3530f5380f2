import Mathlib.Data.List.GetD
import Mathlib.Tactic

set_option autoImplicit false

/-! # Flat byte memory

Addressable storage — a RAM object, a DMA buffer, a whole disk — is a total function from byte
addresses to bytes. The C primitives over it are `copy` (`memcpy` and block transfers), `fill`
(`memset`), `strcpy` and the little-endian field accessors `u16`/`u32` with their writers. Each
writer comes with one `_apply` lemma that says which byte it leaves at each address; the field
lemmas below are consequences, in two shapes: reading the field just written (`_same`) and reading
one that lies elsewhere (`_ne`). -/

/-- Byte-addressed memory. -/
abbrev Mem := Nat → UInt8

namespace Mem

/-! ## Writers -/

/-- Memory holding zero everywhere. -/
def zero : Mem := fun _ => 0

/-- C `memcpy(dst + a, src + b, len)`; the two memories are different objects. -/
def copy (dst : Mem) (a : Nat) (src : Mem) (b len : Nat) : Mem :=
  fun x => if a ≤ x ∧ x < a + len then src (b + (x - a)) else dst x

/-- C `memset(m + a, v, len)`. -/
def fill (m : Mem) (a : Nat) (v : UInt8) (len : Nat) : Mem :=
  fun x => if a ≤ x ∧ x < a + len then v else m x

/-- Store one byte. -/
def set8 (m : Mem) (a : Nat) (v : UInt8) : Mem :=
  fun x => if x = a then v else m x

/-- Store the low 16 bits of `v`, little-endian. -/
def set16 (m : Mem) (a v : Nat) : Mem :=
  (m.set8 a (UInt8.ofNat v)).set8 (a + 1) (UInt8.ofNat (v / 256))

/-- Store the low 32 bits of `v`, little-endian. -/
def set32 (m : Mem) (a v : Nat) : Mem :=
  (m.set16 a v).set16 (a + 2) (v / 65536)

/-- Store a list of bytes. -/
def store (m : Mem) (a : Nat) (bs : List UInt8) : Mem :=
  fun x => if a ≤ x then bs.getD (x - a) (m x) else m x

/-- C `strcpy(m + a, s)`, where `s` lists the characters before the terminator. -/
def strcpy (m : Mem) (a : Nat) (s : List UInt8) : Mem := m.store a (s ++ [0])

/-! ## Readers -/

/-- Little-endian 16-bit load. -/
def u16 (m : Mem) (a : Nat) : Nat := (m a).toNat + 256 * (m (a + 1)).toNat

/-- Little-endian 32-bit load. -/
def u32 (m : Mem) (a : Nat) : Nat := m.u16 a + 65536 * m.u16 (a + 2)

/-- The `len` bytes at `a`. -/
def bytes (m : Mem) (a len : Nat) : List UInt8 := (List.range len).map (fun i => m (a + i))

/-- C `strcmp(m + a, s) == 0`: the characters of `s` in order, then the terminator. -/
def strcmpEq (m : Mem) : Nat → List UInt8 → Bool
  | a, [] => m a == 0
  | a, c :: cs => m a == c && strcmpEq m (a + 1) cs

/-- C `memcmp(m + a, m' + b, n) == 0`. -/
def memcmpEq (m : Mem) (a : Nat) (m' : Mem) (b : Nat) : Nat → Bool
  | 0 => true
  | n + 1 => m a == m' b && memcmpEq m (a + 1) m' (b + 1) n

/-- The C string at `a`, looked for in `fuel` bytes. -/
def cstr (m : Mem) : Nat → Nat → List UInt8
  | 0, _ => []
  | fuel + 1, a => if m a = 0 then [] else m a :: cstr m fuel (a + 1)

/-- The two memories hold the same bytes on `[lo, hi)`. -/
def AgreeOn (m m' : Mem) (lo hi : Nat) : Prop := ∀ x, lo ≤ x → x < hi → m x = m' x

/-! ## What each writer leaves at an address -/

variable {m m' src : Mem} {a b x v len : Nat} {c : UInt8}

theorem copy_apply_in (h : a ≤ x) (h' : x < a + len) :
    m.copy a src b len x = src (b + (x - a)) := by
  simp only [copy, if_pos (And.intro h h')]

theorem copy_apply_out (h : x < a ∨ a + len ≤ x) : m.copy a src b len x = m x := by
  have hx : ¬ (a ≤ x ∧ x < a + len) := by omega
  simp only [copy, if_neg hx]

theorem fill_apply_in (h : a ≤ x) (h' : x < a + len) : m.fill a c len x = c := by
  simp only [fill, if_pos (And.intro h h')]

theorem fill_apply_out (h : x < a ∨ a + len ≤ x) : m.fill a c len x = m x := by
  have hx : ¬ (a ≤ x ∧ x < a + len) := by omega
  simp only [fill, if_neg hx]

theorem set8_apply (m : Mem) (a x : Nat) (c : UInt8) : m.set8 a c x = if x = a then c else m x := rfl

theorem set16_apply_ne (h : x < a ∨ a + 2 ≤ x) : m.set16 a v x = m x := by
  simp only [set16, set8_apply]
  rw [if_neg (by omega), if_neg (by omega)]

theorem set32_apply_ne (h : x < a ∨ a + 4 ≤ x) : m.set32 a v x = m x := by
  simp only [set32]
  rw [set16_apply_ne (by omega), set16_apply_ne (by omega)]

theorem store_apply_out {bs : List UInt8} (h : x < a ∨ a + bs.length ≤ x) :
    m.store a bs x = m x := by
  simp only [store]
  split
  · rw [List.getD_eq_default _ _ (by omega)]
  · rfl

variable (m m' src a b x v len)

variable (s : List UInt8) (n : Nat) (fuel : Nat)

theorem copy_zero : m.copy a src b 0 = m :=
  funext fun _ => copy_apply_out (by omega)

/-- A copy is a copy of its first part, and then of the rest. -/
theorem copy_add (len' : Nat) :
    m.copy a src b (len + len') = (m.copy a src b len).copy (a + len) src (b + len) len' := by
  funext x
  by_cases hfirst : a ≤ x ∧ x < a + len
  · rw [copy_apply_in hfirst.1 (by omega), copy_apply_out (by omega),
      copy_apply_in hfirst.1 hfirst.2]
  by_cases hrest : a + len ≤ x ∧ x < a + len + len'
  · rw [copy_apply_in (by omega) (by omega),
      copy_apply_in hrest.1 hrest.2]
    congr 1
    omega
  · rw [copy_apply_out (by omega), copy_apply_out (by omega),
      copy_apply_out (by omega)]

/-- Only the bytes that are copied matter. -/
theorem copy_congr {src' : Mem} {b' : Nat} (h : ∀ i < len, src (b + i) = src' (b' + i)) :
    m.copy a src b len = m.copy a src' b' len := by
  funext x
  by_cases hx : a ≤ x ∧ x < a + len
  · rw [copy_apply_in hx.1 hx.2, copy_apply_in hx.1 hx.2]
    exact h _ (by omega)
  · rw [copy_apply_out (by omega), copy_apply_out (by omega)]

theorem bytes_congr (h : ∀ i < n, m (a + i) = m' (b + i)) : m.bytes a n = m'.bytes b n :=
  List.map_congr_left (fun i hi => h i (List.mem_range.1 hi))

theorem bytes_add (n k : Nat) : m.bytes a (n + k) = m.bytes a n ++ m.bytes (a + n) k := by
  simp only [bytes, List.range_add, List.map_append, List.map_map]
  congr 1
  apply List.map_congr_left
  intro i _
  simp only [Function.comp_apply, Nat.add_assoc]

theorem bytes_succ : m.bytes a (n + 1) = m a :: m.bytes (a + 1) n := by
  rw [Nat.add_comm, bytes_add]
  rfl

theorem memcmpEq_iff : m.memcmpEq a m' b n = true ↔ ∀ i < n, m (a + i) = m' (b + i) := by
  induction n generalizing a b with
  | zero => exact iff_of_true rfl (fun i hi => nomatch hi)
  | succ n ih =>
    rw [memcmpEq, Bool.and_eq_true, beq_iff_eq, ih]
    constructor
    · rintro ⟨hhead, htail⟩ i hi
      cases i with
      | zero => exact hhead
      | succ i =>
        rw [Nat.add_comm i, ← Nat.add_assoc, ← Nat.add_assoc]
        exact htail i (Nat.lt_of_succ_lt_succ hi)
    · intro h
      refine ⟨h 0 (Nat.succ_pos n), fun i hi => ?_⟩
      rw [Nat.add_assoc, Nat.add_assoc, Nat.add_comm 1]
      exact h (i + 1) (Nat.succ_lt_succ hi)

/-- The second of two stores to a field wins. -/
theorem set16_set16 (w : Nat) : (m.set16 a v).set16 a w = m.set16 a w := by
  funext x
  simp only [set16, set8_apply]
  split
  · rfl
  · split <;> rfl

/-- Only the low 16 bits are stored. -/
theorem set16_mod : m.set16 a (v % 65536) = m.set16 a v := by
  have hlow : UInt8.ofNat (v % 65536) = UInt8.ofNat v := by
    apply UInt8.toNat_inj.1
    rw [UInt8.toNat_ofNat', UInt8.toNat_ofNat']
    omega
  have hhigh : UInt8.ofNat (v % 65536 / 256) = UInt8.ofNat (v / 256) := by
    apply UInt8.toNat_inj.1
    rw [UInt8.toNat_ofNat', UInt8.toNat_ofNat']
    omega
  rw [set16, set16, hlow, hhigh]

theorem store_nil : m.store a [] = m := by
  funext x
  unfold store
  split <;> rfl

theorem store_cons (c : UInt8) (bs : List UInt8) :
    (m.set8 a c).store (a + 1) bs = m.store a (c :: bs) := by
  funext x
  unfold store
  rcases Nat.lt_trichotomy x a with hlt | rfl | hgt
  · rw [if_neg (by omega), if_neg (by omega), set8_apply, if_neg (by omega)]
  · rw [if_neg (by omega), if_pos le_rfl, set8_apply, if_pos rfl, Nat.sub_self]
    rfl
  · rw [if_pos (by omega), if_pos (by omega), set8_apply, if_neg (by omega),
      show x - a = (x - (a + 1)) + 1 by omega]
    rfl

theorem store_apply_in (bs : List UInt8) (i : Nat) (h : i < bs.length) :
    m.store a bs (a + i) = bs[i] := by
  simp only [store, Nat.le_add_right, if_true, Nat.add_sub_cancel_left]
  rw [List.getD_eq_getElem _ _ h]

theorem strcpy_apply_out (h : x < a ∨ a + s.length + 1 ≤ x) : m.strcpy a s x = m x := by
  apply store_apply_out
  rwa [List.length_append, List.length_singleton, ← Nat.add_assoc]

theorem strcpy_apply_nul : m.strcpy a s (a + s.length) = 0 := by
  unfold strcpy
  rw [store_apply_in _ _ _ _ (by simp)]
  simp

/-- Characters that are not NUL, followed by NUL, are the C string there. -/
theorem cstr_eq (hs : 0 ∉ s) (hfuel : s.length < fuel)
    (hchars : ∀ (i : Nat) (hi : i < s.length), m (a + i) = s[i]) (hnul : m (a + s.length) = 0) :
    m.cstr fuel a = s := by
  induction s generalizing a fuel with
  | nil =>
    cases fuel with
    | zero => rfl
    | succ fuel => simpa [cstr] using hnul
  | cons c cs ih =>
    cases fuel with
    | zero => cases hfuel
    | succ fuel =>
      have h0 : m a = c := hchars 0 (Nat.succ_pos _)
      have hc : c ≠ 0 := fun h => hs (by simp [h])
      rw [cstr, h0, if_neg hc]
      apply congrArg
      apply ih _ _ (fun h => hs (.tail _ h)) (Nat.lt_of_succ_lt_succ hfuel)
      · intro i hi
        rw [Nat.add_assoc, Nat.add_comm 1 i]
        exact hchars (i + 1) (Nat.succ_lt_succ hi)
      · rw [Nat.add_assoc, Nat.add_comm 1]
        exact hnul

/-- A copied string reads back, whatever lies behind it. -/
theorem cstr_strcpy (hs : 0 ∉ s) (hfuel : s.length < fuel) : (m.strcpy a s).cstr fuel a = s := by
  apply cstr_eq _ _ _ _ hs hfuel
  · intro i hi
    unfold strcpy
    rw [store_apply_in _ _ _ _ (by simp; omega)]
    exact List.getElem_append_left hi
  · exact strcpy_apply_nul ..

/-! ## Field loads -/

theorem u16_lt : m.u16 a < 65536 := by
  have h0 := (m a).toNat_lt
  have h1 := (m (a + 1)).toNat_lt
  simp only [u16]
  omega

theorem u32_lt : m.u32 a < 4294967296 := by
  have h0 := m.u16_lt a
  have h1 := m.u16_lt (a + 2)
  simp only [u32]
  omega

variable {m m' a b}

variable {fuel hi lo : Nat}

theorem AgreeOn.mono {lo' hi' : Nat} (h : m.AgreeOn m' lo hi) (h1 : lo ≤ lo')
    (h2 : hi' ≤ hi) : m.AgreeOn m' lo' hi' :=
  fun x hx hx' => h x (h1.trans hx) (hx'.trans_le h2)

theorem AgreeOn.trans {m'' : Mem} (h : m.AgreeOn m' lo hi)
    (h' : m'.AgreeOn m'' lo hi) : m.AgreeOn m'' lo hi :=
  fun x hx hx' => (h x hx hx').trans (h' x hx hx')

theorem AgreeOn.symm (h : m.AgreeOn m' lo hi) : m'.AgreeOn m lo hi :=
  fun x hx hx' => (h x hx hx').symm

theorem AgreeOn.u16 (h : m.AgreeOn m' a (a + 2)) : m.u16 a = m'.u16 a := by
  simp only [Mem.u16, h a (by omega) (by omega), h (a + 1) (by omega) (by omega)]

theorem AgreeOn.u32 (h : m.AgreeOn m' a (a + 4)) : m.u32 a = m'.u32 a := by
  simp only [Mem.u32, (h.mono (by omega) (by omega) : m.AgreeOn m' a (a + 2)).u16,
    (h.mono (by omega) (by omega) : m.AgreeOn m' (a + 2) (a + 2 + 2)).u16]

theorem cstr_congr (fuel : Nat) (h : ∀ k, k < fuel → m (a + k) = m' (b + k)) :
    m.cstr fuel a = m'.cstr fuel b := by
  induction fuel generalizing a b with
  | zero => rfl
  | succ fuel ih =>
    have h0 : m a = m' b := h 0 (Nat.succ_pos _)
    have hrest : m.cstr fuel (a + 1) = m'.cstr fuel (b + 1) := by
      apply ih
      intro k hk
      have hk' := h (k + 1) (Nat.succ_lt_succ hk)
      rwa [Nat.add_comm k 1, ← Nat.add_assoc, ← Nat.add_assoc] at hk'
    simp only [cstr, h0, hrest]

theorem AgreeOn.cstr (h : m.AgreeOn m' a (a + fuel)) :
    m.cstr fuel a = m'.cstr fuel a :=
  cstr_congr fuel (fun k hk => h (a + k) (by omega) (by omega))

theorem AgreeOn.bytes (h : m.AgreeOn m' a (a + len)) : m.bytes a len = m'.bytes a len := by
  apply List.map_congr_left
  intro i hi
  rw [List.mem_range] at hi
  exact h (a + i) (by omega) (by omega)

/-- The comparison looks at the characters of `s` and the byte after them only. -/
theorem strcmpEq_congr (s : List UInt8) (h : ∀ k, k ≤ s.length → m (a + k) = m' (b + k)) :
    m.strcmpEq a s = m'.strcmpEq b s := by
  induction s generalizing a b with
  | nil => simpa [strcmpEq] using congrArg (· == 0) (h 0 (Nat.zero_le _))
  | cons c cs ih =>
    have h0 : m a = m' b := h 0 (Nat.zero_le _)
    have hrest : m.strcmpEq (a + 1) cs = m'.strcmpEq (b + 1) cs := by
      apply ih
      intro k hk
      have hk' := h (k + 1) (Nat.succ_le_succ hk)
      rwa [Nat.add_comm k 1, ← Nat.add_assoc, ← Nat.add_assoc] at hk'
    simp only [strcmpEq, h0, hrest]

/-- Behind a terminator there is nothing to look for. -/
theorem cstr_of_terminated {fuel' : Nat} (hle : fuel ≤ fuel')
    (h : ∃ k, k < fuel ∧ m (a + k) = 0) : m.cstr fuel' a = m.cstr fuel a := by
  induction fuel generalizing a fuel' with
  | zero =>
    obtain ⟨k, hk, -⟩ := h
    cases hk
  | succ fuel ih =>
    obtain ⟨fuel', rfl⟩ : ∃ n, fuel' = n + 1 := ⟨fuel' - 1, by omega⟩
    by_cases h0 : m a = 0
    · simp only [cstr, if_pos h0]
    obtain ⟨k, hk, hz⟩ := h
    have hk0 : k ≠ 0 := by
      rintro rfl
      exact h0 hz
    have hrest : m.cstr fuel' (a + 1) = m.cstr fuel (a + 1) :=
      ih (by omega) ⟨k - 1, by omega, by rwa [show a + 1 + (k - 1) = a + k by omega]⟩
    simp only [cstr, if_neg h0, hrest]

/-- On a terminated string the comparison is equality. -/
theorem strcmpEq_iff (s : List UInt8) (hs : 0 ∉ s)
    (h : ∃ k, k < fuel ∧ m (a + k) = 0) : m.strcmpEq a s = true ↔ m.cstr fuel a = s := by
  induction fuel generalizing a s with
  | zero =>
    obtain ⟨k, hk, -⟩ := h
    cases hk
  | succ fuel ih =>
    cases s with
    | nil => by_cases h0 : m a = 0 <;> simp [strcmpEq, cstr, h0]
    | cons c cs =>
      have hc : c ≠ 0 := fun hc => hs (by simp [hc])
      by_cases h0 : m a = 0
      · simp [strcmpEq, cstr, h0, hc.symm]
      obtain ⟨k, hk, hz⟩ := h
      have hk0 : k ≠ 0 := by
        rintro rfl
        exact h0 hz
      have hrest := ih (a := a + 1) cs (fun hmem => hs (.tail _ hmem))
        ⟨k - 1, by omega, by rwa [show a + 1 + (k - 1) = a + k by omega]⟩
      simp [strcmpEq, cstr, h0, hrest]

/-- A C string has all characters before the first terminator. -/
theorem le_length_cstr {n : Nat} (h : ∀ i < n, m (a + i) ≠ 0) (hn : n ≤ fuel) :
    n ≤ (m.cstr fuel a).length := by
  induction fuel generalizing a n with
  | zero => omega
  | succ fuel ih =>
    cases n with
    | zero => exact Nat.zero_le _
    | succ n =>
      have hfirst : m a ≠ 0 := h 0 (by omega)
      have hrest := ih (a := a + 1) (n := n)
        (fun i hi => by rw [Nat.add_right_comm]; exact h (i + 1) (by omega)) (by omega)
      rw [cstr, if_neg hfirst, List.length_cons]
      omega

/-- The C string at `a`: its characters, the terminator behind them, and no other one. -/
theorem cstr_spec (h : ∃ k, k < fuel ∧ m (a + k) = 0) :
    (m.cstr fuel a).length < fuel ∧ 0 ∉ m.cstr fuel a ∧
      (∀ (i : Nat) (hi : i < (m.cstr fuel a).length), m (a + i) = (m.cstr fuel a)[i]) ∧
      m (a + (m.cstr fuel a).length) = 0 := by
  induction fuel generalizing a with
  | zero =>
    obtain ⟨k, hk, -⟩ := h
    cases hk
  | succ fuel ih =>
    by_cases h0 : m a = 0
    · simp [cstr, h0]
    obtain ⟨k, hk, hz⟩ := h
    have hk0 : k ≠ 0 := by
      rintro rfl
      exact h0 hz
    obtain ⟨hlen, hnul, hchars, hend⟩ := ih (a := a + 1)
      ⟨k - 1, by omega, by rwa [show a + 1 + (k - 1) = a + k by omega]⟩
    simp only [cstr, if_neg h0, List.length_cons, List.mem_cons, not_or]
    refine ⟨by omega, ⟨fun h => h0 h.symm, hnul⟩, ?_, ?_⟩
    · intro i hi
      cases i with
      | zero => rfl
      | succ i =>
        rw [List.getElem_cons_succ, ← hchars i (by omega), Nat.add_assoc, Nat.add_comm 1 i]
    · rw [Nat.add_comm _ 1, ← Nat.add_assoc]
      exact hend

theorem length_bytes : (m.bytes a len).length = len := by
  simp [Mem.bytes]

variable (m a b)

theorem u16_set16_same : (m.set16 a v).u16 a = v % 65536 := by
  have hne : ¬ a = a + 1 := by omega
  simp only [u16, set16, set8_apply, if_neg hne, if_true, UInt8.toNat_ofNat']
  omega

theorem u32_set32_same : (m.set32 a v).u32 a = v % 4294967296 := by
  have hlow : ((m.set16 a v).set16 (a + 2) (v / 65536)).u16 a = v % 65536 := by
    rw [← u16_set16_same m a v]
    exact AgreeOn.u16 (fun x hx hx' => set16_apply_ne (by omega))
  simp only [u32, set32, hlow, u16_set16_same]
  omega

theorem set32_apply (i : Nat) (h : i < 4) : m.set32 a v (a + i) = UInt8.ofNat (v / 256 ^ i) := by
  have hcases : i = 0 ∨ i = 1 ∨ i = 2 ∨ i = 3 := by omega
  rcases hcases with rfl | rfl | rfl | rfl
  · simp [set32, set16, set8_apply, Nat.add_assoc]
  · simp [set32, set16, set8_apply, Nat.add_assoc]
  · simp [set32, set16, set8_apply, Nat.add_assoc]
  · simp [set32, set16, set8_apply, Nat.div_div_eq_div_mul, Nat.add_assoc]

/-- A 32-bit value is at `a` if its four bytes are. -/
theorem u32_eq_iff (hv : v < 2 ^ 32) :
    m.u32 a = v ↔ ∀ i < 4, m (a + i) = UInt8.ofNat (v / 256 ^ i) := by
  refine ⟨fun h i hi => ?_, fun h => ?_⟩
  · apply UInt8.toNat.inj
    rw [UInt8.toNat_ofNat']
    have h0 := (m a).toNat_lt
    have h1 := (m (a + 1)).toNat_lt
    have h2 := (m (a + 2)).toNat_lt
    simp only [u32, u16, Nat.add_assoc, Nat.reduceAdd] at h
    have hcases : i = 0 ∨ i = 1 ∨ i = 2 ∨ i = 3 := by omega
    rcases hcases with rfl | rfl | rfl | rfl
    · simp only [Nat.add_zero, Nat.pow_zero, Nat.div_one]
      omega
    · omega
    · omega
    · omega
  · have h32 : (m.set32 a v).u32 a = v := (u32_set32_same m a v).trans (Nat.mod_eq_of_lt hv)
    rw [← h32]
    refine AgreeOn.u32 (fun x hlo hhi => ?_)
    obtain ⟨i, rfl⟩ := Nat.exists_eq_add_of_le hlo
    rw [set32_apply _ _ _ _ (by omega)]
    exact h i (by omega)

theorem u16_set8_ne (c : UInt8) (h : a < b ∨ b + 2 ≤ a) : (m.set8 a c).u16 b = m.u16 b :=
  AgreeOn.u16 (fun x _ _ => by rw [set8_apply, if_neg (by omega)])

theorem u16_set16_ne (h : a + 2 ≤ b ∨ b + 2 ≤ a) : (m.set16 a v).u16 b = m.u16 b :=
  AgreeOn.u16 (fun x _ _ => set16_apply_ne (by omega))

theorem u32_set16_ne (h : a + 2 ≤ b ∨ b + 4 ≤ a) : (m.set16 a v).u32 b = m.u32 b :=
  AgreeOn.u32 (fun x _ _ => set16_apply_ne (by omega))

theorem u32_set32_ne (h : a + 4 ≤ b ∨ b + 4 ≤ a) : (m.set32 a v).u32 b = m.u32 b :=
  AgreeOn.u32 (fun x _ _ => set32_apply_ne (by omega))

theorem u16_copy_ne (s : Nat) (h : a + len ≤ b ∨ b + 2 ≤ a) :
    (m.copy a src s len).u16 b = m.u16 b :=
  AgreeOn.u16 (fun x _ _ => copy_apply_out (by omega))

end Mem
