import RkUboot.Lib.Mem

set_option autoImplicit false

/-! # Byte lists in memory

A file that a program writes piece by piece is a list of bytes, and a program that reads it takes
fields at fixed offsets. `Mem.Has m a bs` connects the two: the list `bs` is in `m` from address `a`
on. It splits along appended lists, so that a file that is put together from parts has each part at
its offset, and the fields of a record can be read off by `simp`. -/

namespace Mem

/-! ## Little-endian fields -/

/-- The low 16 bits, little-endian. -/
def le16 (v : Nat) : List UInt8 := [UInt8.ofNat v, UInt8.ofNat (v / 256)]

/-- The low 32 bits, little-endian. -/
def le32 (v : Nat) : List UInt8 := le16 v ++ le16 (v / 65536)

/-- The low 64 bits, little-endian. -/
def le64 (v : Nat) : List UInt8 := le32 v ++ le32 (v / 4294967296)

/-- The 64-bit field at `a`. -/
def u64 (m : Mem) (a : Nat) : Nat := m.u32 a + 4294967296 * m.u32 (a + 4)

@[simp] theorem length_le16 (v : Nat) : (le16 v).length = 2 := rfl

@[simp] theorem length_le32 (v : Nat) : (le32 v).length = 4 := rfl

@[simp] theorem length_le64 (v : Nat) : (le64 v).length = 8 := rfl

/-! ## Padding -/

/-- The next multiple of `k`. -/
def alignUp (k n : Nat) : Nat := (n + (k - 1)) / k * k

/-- A list with zeros behind it up to a multiple of `k`. -/
def padTo (k : Nat) (bs : List UInt8) : List UInt8 :=
  bs ++ List.replicate (alignUp k bs.length - bs.length) 0

theorem le_alignUp {k : Nat} (hk : 0 < k) (n : Nat) : n ≤ alignUp k n := by
  have hdiv := Nat.lt_div_mul_add hk (a := n + (k - 1))
  unfold alignUp
  omega

theorem length_padTo {k : Nat} (hk : 0 < k) (bs : List UInt8) :
    (padTo k bs).length = alignUp k bs.length := by
  have hle := le_alignUp hk bs.length
  rw [padTo, List.length_append, List.length_replicate]
  omega

/-! ## Lists in memory -/

/-- A memory that starts with `bs`. -/
def ofList (bs : List UInt8) : Mem := fun i => bs.getD i 0

/-- The bytes `bs` are in `m` from `a` on. -/
def Has (m : Mem) (a : Nat) (bs : List UInt8) : Prop := m.bytes a bs.length = bs

section Has

variable {m m' : Mem} {a : Nat} {bs cs : List UInt8}

variable {v : Nat} (b : UInt8) {α : Type} {f : α → List UInt8} {xs : List α} (n : Nat) {w : Nat}

theorem Has.bytes_eq {n : Nat} (h : m.Has a bs) (hn : bs.length = n) : m.bytes a n = bs := by
  rw [← hn]
  exact h

theorem has_bytes : m.Has a (m.bytes a n) := by
  rw [Has, length_bytes]

theorem has_iff : m.Has a bs ↔ ∀ i (h : i < bs.length), m (a + i) = bs[i] := by
  constructor
  · intro h i hi
    have hget := congrArg (fun l => l[i]?) h
    simpa [bytes, hi] using hget
  · intro h
    apply List.ext_getElem
    · exact length_bytes _
    · intro i hi hi'
      simpa [bytes] using h i hi'

@[simp] theorem has_nil : m.Has a [] := rfl

@[simp] theorem has_append : m.Has a (bs ++ cs) ↔ m.Has a bs ∧ m.Has (a + bs.length) cs := by
  unfold Has
  rw [List.length_append, bytes_add]
  constructor
  · intro h
    exact List.append_inj h (length_bytes _)
  · rintro ⟨hfirst, hrest⟩
    rw [hfirst, hrest]

theorem has_cons : m.Has a (b :: bs) ↔ m a = b ∧ m.Has (a + 1) bs := by
  rw [← List.singleton_append, has_append]
  refine and_congr ?_ Iff.rfl
  simp [Has, bytes]

theorem has_ofList (bs : List UInt8) : (ofList bs).Has 0 bs := by
  rw [has_iff]
  intro i hi
  simp [ofList, hi]

theorem Has.congr (h : m.Has a bs) (hm : ∀ i < bs.length, m' (a + i) = m (a + i)) :
    m'.Has a bs := by
  rw [has_iff] at h ⊢
  intro i hi
  rw [hm i hi]
  exact h i hi

/-- A copy holds what its source holds. -/
theorem Has.copy {src : Mem} {b len : Nat} (h : src.Has b bs) (hlen : bs.length ≤ len) :
    (m.copy a src b len).Has a bs := by
  rw [has_iff] at h ⊢
  intro i hi
  rw [copy_apply_in (by omega) (by omega), Nat.add_sub_cancel_left]
  exact h i hi

/-- A part of the list is at its offset. -/
theorem Has.slice (h : m.Has a bs) {j n : Nat} (hn : j + n ≤ bs.length) :
    m.bytes (a + j) n = (bs.drop j).take n := by
  rw [← List.take_append_drop j bs, has_append, List.length_take_of_le (by omega)] at h
  obtain ⟨-, h⟩ := h
  rw [← List.take_append_drop n (bs.drop j), has_append] at h
  refine h.1.bytes_eq ?_
  rw [List.length_take, List.length_drop]
  omega

theorem Has.u16 (h : m.Has a (le16 v)) : m.u16 a = v % 65536 := by
  simp only [le16, has_cons] at h
  rw [Mem.u16, h.1, h.2.1, UInt8.toNat_ofNat', UInt8.toNat_ofNat']
  omega

theorem Has.u32 (h : m.Has a (le32 v)) : m.u32 a = v % 4294967296 := by
  rw [le32, has_append, length_le16] at h
  rw [Mem.u32, h.1.u16, h.2.u16]
  omega

theorem Has.u64 (h : m.Has a (le64 v)) : m.u64 a = v % 18446744073709551616 := by
  rw [le64, has_append, length_le32] at h
  rw [Mem.u64, h.1.u32, h.2.u32]
  omega

theorem Has.u32_of_lt (h : m.Has a (le32 v)) (hv : v < 2 ^ 32) : m.u32 a = v :=
  h.u32.trans (Nat.mod_eq_of_lt hv)

/-- The four bytes of a word spell it. -/
theorem has_le32_u32 (m : Mem) (a : Nat) : m.Has a (le32 (m.u32 a)) := by
  have hbyte := (u32_eq_iff m a (m.u32 a) (u32_lt m a)).1 rfl
  rw [has_iff]
  intro i hi
  rw [length_le32] at hi
  rw [hbyte i hi]
  have hcases : i = 0 ∨ i = 1 ∨ i = 2 ∨ i = 3 := by omega
  rcases hcases with rfl | rfl | rfl | rfl
  · simp [le32, le16]
  · simp [le32, le16]
  · simp [le32, le16]
  · simp [le32, le16, Nat.div_div_eq_div_mul]

theorem has_replicate : m.Has a (List.replicate n b) ↔ ∀ i < n, m (a + i) = b := by
  simp [has_iff]

/-- Each row of a table of equally long rows is at its place. -/
theorem has_flatMap (hw : ∀ x ∈ xs, (f x).length = w) :
    m.Has a (xs.flatMap f) ↔ ∀ i (h : i < xs.length), m.Has (a + w * i) (f xs[i]) := by
  induction xs generalizing a with
  | nil => simp
  | cons x xs ih =>
    rw [List.flatMap_cons, has_append, ih (fun y hy => hw y (.tail _ hy)),
      hw x (.head _)]
    constructor
    · rintro ⟨hfirst, hrest⟩ i hi
      cases i with
      | zero => exact hfirst
      | succ i =>
        have := hrest i (by simpa using hi)
        rwa [Nat.add_assoc, Nat.add_comm w, ← Nat.mul_succ] at this
    · intro h
      refine ⟨h 0 (by simp), fun i hi => ?_⟩
      have := h (i + 1) (by simpa using hi)
      rwa [Nat.mul_succ, Nat.add_comm (w * i), ← Nat.add_assoc] at this

theorem length_flatMap_of_length
    (hw : ∀ x ∈ xs, (f x).length = w) : (xs.flatMap f).length = w * xs.length := by
  induction xs with
  | nil => rfl
  | cons x xs ih =>
    rw [List.flatMap_cons, List.length_append, hw x (.head _),
      ih (fun y hy => hw y (.tail _ hy)), List.length_cons, Nat.mul_succ,
      Nat.add_comm]

end Has

end Mem
