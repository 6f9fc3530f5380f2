import RkUboot.Lib.Run
import RkUboot.Vendor.Basic

set_option autoImplicit false

/-! # The vendor storage as a finite map

What the store is for: a map from ids to byte strings. `Item` is one record of the abstract store —
id, the capacity the item was given when it was appended, and its present value — and
`Represents g items` says that `g_vendor` lays these records out one behind the other.
`vendor_storage_write` keeps the relation whenever the value fits the capacity of the item it
rewrites and the item table has room for a new item. The code checks neither:
`vendor_storage_write` compares `size` with its own rounded-up value and never looks at
`item_num`. -/

namespace Vendor

/-! ## The abstract store -/

/-- One record of the store. -/
structure Item where
  id : Nat
  cap : Nat
  val : List UInt8
  /-- The value lies inside the capacity reserved for it. -/
  fits : val.length ≤ cap

/-- Capacity taken by a list of records. -/
def caps : List Item → Nat
  | [] => 0
  | e :: es => e.cap + caps es

/-- The value stored under `id`. -/
def get (id : Nat) : List Item → Option (List UInt8)
  | [] => none
  | e :: es => if e.id = id then some e.val else get id es

theorem caps_append (xs ys : List Item) : caps (xs ++ ys) = caps xs + caps ys := by
  induction xs with
  | nil => simp [caps]
  | cons e es ih => simp only [List.cons_append, caps, ih]; omega

variable {items xs ys : List Item} {i id o size w : Nat}

theorem get_append_of_notMem (ys : List Item)
    (h : ∀ e ∈ xs, e.id ≠ id) : get id (xs ++ ys) = get id ys := by
  induction xs with
  | nil => rfl
  | cons e es ih =>
    have he : ¬ e.id = id := h e ((.head _) ..)
    rw [List.cons_append, get, if_neg he]
    exact ih (fun x hx => h x (.tail _ hx))

theorem get_of_notMem (h : ∀ e ∈ xs, e.id ≠ id) : get id xs = none := by
  have happend := get_append_of_notMem [] h
  rwa [List.append_nil] at happend

/-- Putting a record where another one with the same id (or none) was changes only that id. -/
theorem get_replace (xs ys : List Item) (e e' : Item) (h : e'.id = e.id)
    (hw : w ≠ e.id) : get w (xs ++ e' :: ys) = get w (xs ++ e :: ys) := by
  induction xs with
  | nil =>
    simp only [List.nil_append, get]
    rw [if_neg (fun he => hw (by rw [← he, h])), if_neg (fun he => hw he.symm)]
  | cons x xs ih => simp only [List.cons_append, get, ih]

theorem get_concat (xs : List Item) (e : Item) (hw : w ≠ e.id) :
    get w (xs ++ [e]) = get w xs := by
  induction xs with
  | nil => simp only [List.nil_append, get]; rw [if_neg (fun he => hw he.symm)]
  | cons x xs ih => simp only [List.cons_append, get, ih]

/-! ## The representation relation -/

/-- Record `e` is item `i`, its value at `data[o]`. -/
def StoredItem (g : Mem) (i o : Nat) (e : Item) : Prop :=
  itemId g i = e.id ∧ itemOffset g i = o ∧ itemSize g i = e.val.length ∧
    g.bytes (dataAt o) e.val.length = e.val

/-- The records are the items from `i` on, their values one behind the other from `data[o]` on. -/
def Stored (g : Mem) : Nat → Nat → List Item → Prop
  | _, _, [] => True
  | i, o, e :: es => StoredItem g i o e ∧ Stored g (i + 1) (o + e.cap) es

/-- The bytes of `g_vendor` represent the list of records. -/
structure Represents (g : Mem) (items : List Item) : Prop where
  stored : Stored g 0 0 items
  num : itemNum g = items.length
  num_le : items.length ≤ 126
  off : freeOffset g = caps items
  room : freeSize g + caps items = dataSize

theorem stored_append (g : Mem) (xs ys : List Item) : ∀ i o,
    Stored g i o (xs ++ ys) ↔ Stored g i o xs ∧ Stored g (i + xs.length) (o + caps xs) ys := by
  induction xs with
  | nil => intro i o; simp [Stored, caps]
  | cons e es ih =>
    intro i o
    simp only [List.cons_append, Stored, ih, List.length_cons, caps, and_assoc]
    rw [show i + 1 + es.length = i + (es.length + 1) by omega,
      show o + e.cap + caps es = o + (e.cap + caps es) by omega]

variable {e : Item} {g g' : Mem}

theorem StoredItem.frame (h : StoredItem g i o e)
    (hitem : g.AgreeOn g' (itemAt i) (itemAt i + 6))
    (hdata : g.AgreeOn g' (dataAt o) (dataAt o + e.val.length)) : StoredItem g' i o e := by
  obtain ⟨hid, hoff, hsize, hval⟩ := h
  refine ⟨?_, ?_, ?_, ?_⟩
  · rw [← hid]; exact (hitem.mono (by omega) (by omega)).symm.u16
  · rw [← hoff]; exact (hitem.mono (by omega) (by omega)).symm.u16
  · rw [← hsize]; exact (hitem.mono (by omega) (by omega)).symm.u16
  · rw [← hdata.bytes]; exact hval

/-- Records survive any write outside their items and their part of `data`. -/
theorem Stored.frame (items : List Item) : ∀ {i o : Nat}, Stored g i o items →
    g.AgreeOn g' (itemAt i) (itemAt (i + items.length)) →
    g.AgreeOn g' (dataAt o) (dataAt (o + caps items)) → Stored g' i o items := by
  induction items with
  | nil => intro i o _ _ _; trivial
  | cons e es ih =>
    intro i o h hitem hdata
    have hfits := e.fits
    simp only [itemAt, dataAt, caps, List.length_cons] at hitem hdata
    refine ⟨h.1.frame (hitem.mono le_rfl ?_) (hdata.mono le_rfl ?_), ih h.2 ?_ ?_⟩
    · simp only [itemAt]; omega
    · simp only [dataAt]; omega
    · exact hitem.mono (by simp only [itemAt]; omega) (by simp only [itemAt]; omega)
    · exact hdata.mono (by simp only [dataAt]; omega) (by simp only [dataAt]; omega)

/-! ## Finding an item -/

/-- The search loop finds the first record with the id, if there is one. -/
theorem findItem_spec (g : Mem) (id : Nat) (items : List Item) : ∀ {i o : Nat},
    Stored g i o items →
    (findItem g id items.length i = none ∧ ∀ e ∈ items, e.id ≠ id) ∨
    (∃ xs e ys, items = xs ++ e :: ys ∧ e.id = id ∧ (∀ x ∈ xs, x.id ≠ id) ∧
      findItem g id items.length i = some (i + xs.length)) := by
  induction items with
  | nil => intro i o _; exact .inl ⟨rfl, by simp⟩
  | cons e es ih =>
    intro i o h
    obtain ⟨⟨hid, -, -, -⟩, hrest⟩ := h
    simp only [List.length_cons, findItem, hid]
    by_cases he : e.id = id
    · refine .inr ⟨[], e, es, rfl, he, by simp, ?_⟩
      rw [if_pos he]
      rfl
    rw [if_neg he]
    rcases ih hrest with ⟨hnone, hall⟩ | ⟨xs, e', ys, rfl, he', hxs, hsome⟩
    · refine .inl ⟨hnone, ?_⟩
      intro x hx
      rcases List.mem_cons.1 hx with rfl | hx
      · exact he
      · exact hall x hx
    · refine .inr ⟨e :: xs, e', ys, rfl, he', ?_, ?_⟩
      · intro x hx
        rcases List.mem_cons.1 hx with rfl | hx
        · exact he
        · exact hxs x hx
      · rw [hsome, List.length_cons]
        congr 1
        omega

/-- `vendor_storage_read` with a large enough buffer returns the stored value. -/
theorem read_of_represents (h : Represents g items) (id : Nat)
    (pbuf : Mem) :
    match get id items with
    | some bs => (vendorStorageRead g id pbuf 65535).1 = bs.length ∧
        (vendorStorageRead g id pbuf 65535).2.bytes 0 bs.length = bs
    | none => (vendorStorageRead g id pbuf 65535).1 = -1 := by
  simp only [vendorStorageRead, h.num]
  rcases findItem_spec g id items h.stored with ⟨hnone, hall⟩ | ⟨xs, e, ys, rfl, he, hxs, hsome⟩
  · rw [get_of_notMem hall, hnone]
  have hstored := ((stored_append g xs (e :: ys) 0 0).1 h.stored).2
  obtain ⟨⟨-, hoff, hsize, hval⟩, -⟩ := hstored
  have hget : get id (xs ++ e :: ys) = some e.val := by
    rw [get_append_of_notMem _ hxs, get, if_pos he]
  rw [hget, hsome]
  simp only [Nat.zero_add] at hoff hsize hval ⊢
  -- the requested size is capped by the item's own
  have hlt : itemSize g xs.length < 65536 := g.u16_lt _
  have hcap : (if 65535 > itemSize g xs.length then itemSize g xs.length else 65535)
      = e.val.length := by
    split <;> omega
  rw [hcap, hoff]
  refine ⟨rfl, ?_⟩
  conv => rhs; rw [← hval]
  apply List.map_congr_left
  intro i hi
  rw [List.mem_range] at hi
  rw [Mem.copy_apply_in (by omega) (by omega)]
  simp

/-! ## Writing an item -/

theorem caps_le_dataSize (h : Represents g items) :
    caps items ≤ dataSize := by
  have := h.room
  omega

theorem counters_of_agree (h : g.AgreeOn g' 10 16) :
    itemNum g' = itemNum g ∧ freeOffset g' = freeOffset g ∧ freeSize g' = freeSize g :=
  ⟨(h.mono (by omega) (by omega)).symm.u16, (h.mono (by omega) (by omega)).symm.u16,
    (h.mono (by omega) (by omega)).symm.u16⟩

/-- The header update does not touch the records. -/
theorem Represents.bumpHeader (L : Layout) (h : Represents g items) :
    Represents (bumpHeader L g) items := by
  have hcaps := caps_le_dataSize h
  have hnum := h.num_le
  have hagree : g.AgreeOn (Vendor.bumpHeader L g) 10 65532 :=
    fun x hx hx' => (bumpHeader_apply_ne L g x (by omega)).symm
  obtain ⟨hn, hoff, hsize⟩ := counters_of_agree (hagree.mono (by omega) (by omega))
  simp only [dataSize] at hcaps
  refine ⟨h.stored.frame items (hagree.mono ?_ ?_) (hagree.mono ?_ ?_), ?_, hnum, ?_, ?_⟩
  · simp only [itemAt]; omega
  · simp only [itemAt]; omega
  · simp only [dataAt]; omega
  · simp only [dataAt]; omega
  · rw [hn, h.num]
  · rw [hoff, h.off]
  · rw [hsize, h.room]

/-- Bytes between the start of item `i` and the start of the next item (or of the free space). -/
def capacity (g : Mem) (i : Nat) : Nat :=
  (if i + 1 < itemNum g then itemOffset g (i + 1) else freeOffset g) - itemOffset g i

theorem capacity_of_represents
    (h : Represents g (xs ++ e :: ys)) : capacity g xs.length = e.cap := by
  obtain ⟨-, hitem, hys⟩ := (stored_append g xs (e :: ys) 0 0).1 h.stored
  obtain ⟨-, hoff, -, -⟩ := hitem
  have hnum := h.num
  have hfree := h.off
  simp only [Nat.zero_add] at hoff hys
  simp only [capacity, hoff, hnum, hfree, caps_append, caps, List.length_append, List.length_cons]
  cases ys with
  | nil =>
    rw [if_neg (by simp)]
    simp only [caps]
    omega
  | cons y ys =>
    obtain ⟨⟨-, hnext, -, -⟩, -⟩ := hys
    rw [if_pos (by simp only [List.length_cons]; omega), hnext]
    omega

/-- Bytes `copy` put in the destination. -/
theorem bytes_copy (m src : Mem) (a len : Nat) :
    (m.copy a src 0 len).bytes a len = src.bytes 0 len := by
  apply List.map_congr_left
  intro i hi
  rw [List.mem_range] at hi
  rw [Mem.copy_apply_in (by omega) (by omega)]
  congr 1
  omega

/-- Rewriting touches the value at its old place and the size field, nothing else. -/
theorem updateItem_agree (pbuf : Mem) (hoff : itemOffset g i = o)
    (lo hi : Nat) (hdata : hi ≤ dataAt o ∨ dataAt o + size ≤ lo)
    (hitem : hi ≤ itemAt i + 4 ∨ itemAt i + 6 ≤ lo) :
    g.AgreeOn (updateItem g i pbuf size) lo hi := by
  intro x hx hx'
  simp only [updateItem, hoff]
  rw [Mem.set16_apply_ne (by omega), Mem.copy_apply_out (by omega)]

theorem updateItem_stored (pbuf : Mem)
    (h : StoredItem g i o e) (hi : itemAt i + 6 ≤ dataAt o) (hsize : size < 65536)
    (hfit : (pbuf.bytes 0 size).length ≤ e.cap) :
    StoredItem (updateItem g i pbuf size) i o ⟨e.id, e.cap, pbuf.bytes 0 size, hfit⟩ := by
  obtain ⟨hid, hoff, -, -⟩ := h
  have hagree : g.AgreeOn (updateItem g i pbuf size) (itemAt i) (itemAt i + 4) :=
    updateItem_agree pbuf hoff _ _ (by omega) (by omega)
  refine ⟨?_, ?_, ?_, ?_⟩
  · rw [← hid]; exact (hagree.mono (by omega) (by omega)).symm.u16
  · rw [← hoff]; exact (hagree.mono (by omega) (by omega)).symm.u16
  · simp only [itemSize, updateItem, Mem.u16_set16_same, Mem.length_bytes]
    exact Nat.mod_eq_of_lt hsize
  · simp only [Mem.length_bytes, updateItem, hoff]
    rw [← bytes_copy g pbuf (dataAt o) size]
    exact Mem.AgreeOn.bytes _ (fun x _ _ => Mem.set16_apply_ne (by omega))

/-- **Rewriting in place** keeps the representation when the value fits the item's capacity. -/
theorem updateItem_represents (pbuf : Mem) (size : Nat)
    (h : Represents g (xs ++ e :: ys)) (hsize : size < 65536)
    (hfit : (pbuf.bytes 0 size).length ≤ e.cap) :
    Represents (updateItem g xs.length pbuf size)
      (xs ++ ⟨e.id, e.cap, pbuf.bytes 0 size, hfit⟩ :: ys) := by
  have hnum := h.num_le
  have hlen := hfit
  obtain ⟨hxs, hitem, hys⟩ := (stored_append g xs (e :: ys) 0 0).1 h.stored
  simp only [Nat.zero_add] at hitem hys
  simp only [List.length_append, List.length_cons] at hnum
  rw [Mem.length_bytes] at hlen
  have hagree : ∀ lo hi, (hi ≤ 1024 + caps xs ∨ 1024 + caps xs + size ≤ lo) →
      (hi ≤ 16 + 8 * xs.length + 4 ∨ 16 + 8 * xs.length + 6 ≤ lo) →
      g.AgreeOn (updateItem g xs.length pbuf size) lo hi :=
    fun lo hi => updateItem_agree pbuf hitem.2.1 lo hi
  obtain ⟨hn, hoff, hroom⟩ := counters_of_agree (hagree 10 16 (by omega) (by omega))
  refine ⟨(stored_append _ xs _ 0 0).2 ⟨hxs.frame xs ?_ ?_, ?_, ?_⟩, ?_, ?_, ?_, ?_⟩
  · exact hagree _ _ (by simp only [itemAt]; omega) (by simp only [itemAt]; omega)
  · exact hagree _ _ (by simp only [dataAt]; omega) (by simp only [dataAt]; omega)
  · simp only [Nat.zero_add]
    exact updateItem_stored pbuf hitem (by simp only [itemAt, dataAt]; omega) hsize hfit
  · simp only [Nat.zero_add]
    refine hys.frame ys ?_ ?_
    · exact hagree _ _ (by simp only [itemAt]; omega) (by simp only [itemAt]; omega)
    · exact hagree _ _ (by simp only [dataAt]; omega) (by simp only [dataAt]; omega)
  · rw [hn, h.num]; simp
  · simpa using h.num_le
  · rw [hoff, h.off]; simp [caps_append, caps]
  · rw [hroom, ← h.room]; simp [caps_append, caps]

/-! ## Appending an item -/

/-- The assignments of `appendItem` with the fields they re-read put in. -/
theorem appendItem_eq (g : Mem) (id : Nat) (pbuf : Mem) (size : Nat) :
    appendItem g id pbuf size
      = ((((((g.set16 (itemAt (itemNum g)) id).set16 (itemAt (itemNum g) + 2) (freeOffset g)).set16
          (itemAt (itemNum g) + 4) size).set16 12 (freeOffset g + alginSize size)).set16 14
          (freeSize g - alginSize size)).copy (dataAt (freeOffset g)) pbuf 0 size).set16 10
          (itemNum g + 1) := by
  have hlt := g.u16_lt 12
  have hoff : ∀ v, freeOffset (g.set16 (itemAt (itemNum g)) v) = freeOffset g := fun v =>
    Mem.u16_set16_ne _ _ _ _ (by simp only [itemAt]; omega)
  simp only [appendItem, hoff]
  have hoff' : ∀ v w u, freeOffset (((g.set16 (itemAt (itemNum g)) v).set16
      (itemAt (itemNum g) + 2) w).set16 (itemAt (itemNum g) + 4) u) = freeOffset g := by
    intro v w u
    simp (disch := omega) only [freeOffset, itemAt, Mem.u16_set16_ne]
  have hfree : ∀ v w u t, freeSize ((((g.set16 (itemAt (itemNum g)) v).set16
      (itemAt (itemNum g) + 2) w).set16 (itemAt (itemNum g) + 4) u).set16 12 t) = freeSize g := by
    intro v w u t
    simp (disch := omega) only [freeSize, itemAt, Mem.u16_set16_ne]
  have hitem : ∀ v u t r, itemOffset (((((g.set16 (itemAt (itemNum g)) v).set16
      (itemAt (itemNum g) + 2) (freeOffset g)).set16 (itemAt (itemNum g) + 4) u).set16 12 t).set16
      14 r) (itemNum g) = freeOffset g := by
    intro v u t r
    simp (disch := omega) only [itemOffset, freeOffset, itemAt, Mem.u16_set16_ne,
      Mem.u16_set16_same]
    exact Nat.mod_eq_of_lt hlt
  have hnum : ∀ v w u t r o len, itemNum ((((((g.set16 (itemAt (itemNum g)) v).set16
      (itemAt (itemNum g) + 2) w).set16 (itemAt (itemNum g) + 4) u).set16 12 t).set16 14 r).copy
      (dataAt o) pbuf 0 len) = itemNum g := by
    intro v w u t r o len
    generalize hn : itemNum g = n
    simp (disch := omega) only [itemNum, itemAt, dataAt, Mem.u16_copy_ne, Mem.u16_set16_ne] at hn ⊢
    exact hn
  rw [hoff', hfree, hitem, hnum]

/-- Appending touches the new item, the three counters and the value's place in `data`. -/
theorem appendItem_agree (pbuf : Mem) (lo hi : Nat)
    (hcounters : hi ≤ 10 ∨ 16 ≤ lo)
    (hitem : hi ≤ itemAt (itemNum g) ∨ itemAt (itemNum g) + 6 ≤ lo)
    (hdata : hi ≤ dataAt (freeOffset g) ∨ dataAt (freeOffset g) + size ≤ lo) :
    g.AgreeOn (appendItem g id pbuf size) lo hi := by
  intro x hx hx'
  rw [appendItem_eq]
  simp (disch := omega) only [Mem.set16_apply_ne, Mem.copy_apply_out]

theorem appendItem_counters (g : Mem) (id size : Nat) (pbuf : Mem) :
    itemNum (appendItem g id pbuf size) = (itemNum g + 1) % 65536 ∧
    freeOffset (appendItem g id pbuf size) = (freeOffset g + alginSize size) % 65536 ∧
    freeSize (appendItem g id pbuf size) = (freeSize g - alginSize size) % 65536 := by
  rw [appendItem_eq]
  generalize itemNum g = n, freeOffset g = o, freeSize g = f
  refine ⟨Mem.u16_set16_same .., ?_, ?_⟩
  · simp (disch := omega) only [freeOffset, dataAt, Mem.u16_set16_ne, Mem.u16_copy_ne,
      Mem.u16_set16_same]
  · simp (disch := omega) only [freeSize, dataAt, Mem.u16_set16_ne, Mem.u16_copy_ne,
      Mem.u16_set16_same]

theorem appendItem_stored (pbuf : Mem) (hid : id < 65536)
    (hsize : size < 65536) (hroom : itemNum g < 126)
    (hfit : (pbuf.bytes 0 size).length ≤ alginSize size) :
    StoredItem (appendItem g id pbuf size) (itemNum g) (freeOffset g)
      ⟨id, alginSize size, pbuf.bytes 0 size, hfit⟩ := by
  have hlt := g.u16_lt 12
  rw [appendItem_eq]
  generalize hn : itemNum g = n at hroom
  generalize ho : freeOffset g = o
  rw [freeOffset] at ho
  simp only [StoredItem, itemId, itemOffset, itemSize, itemAt, dataAt, Mem.length_bytes]
  refine ⟨?_, ?_, ?_, ?_⟩
  · simp (disch := omega) only [Mem.u16_set16_ne, Mem.u16_copy_ne, Mem.u16_set16_same]
    exact Nat.mod_eq_of_lt hid
  · simp (disch := omega) only [Mem.u16_set16_ne, Mem.u16_copy_ne, Mem.u16_set16_same]
    exact Nat.mod_eq_of_lt (by omega)
  · simp (disch := omega) only [Mem.u16_set16_ne, Mem.u16_copy_ne, Mem.u16_set16_same]
    exact Nat.mod_eq_of_lt hsize
  · rw [← bytes_copy _ pbuf (1024 + o) size]
    exact Mem.AgreeOn.bytes _ (fun x _ _ => Mem.set16_apply_ne (by omega))

/-- **Appending** keeps the representation when the item table has a free entry. -/
theorem appendItem_represents (pbuf : Mem)
    (h : Represents g items) (hid : id < 65536) (hsize : size < 65536)
    (hspace : alginSize size ≤ freeSize g) (hroom : itemNum g < 126)
    (hfit : (pbuf.bytes 0 size).length ≤ alginSize size) :
    Represents (appendItem g id pbuf size)
      (items ++ [⟨id, alginSize size, pbuf.bytes 0 size, hfit⟩]) := by
  have hcaps := h.room
  have hnum := h.num
  have hoff := h.off
  have hstored := appendItem_stored pbuf hid hsize hroom hfit
  obtain ⟨hn, ho, hf⟩ := appendItem_counters g id size pbuf
  simp only [dataSize] at hcaps
  refine ⟨(stored_append _ items _ 0 0).2 ⟨h.stored.frame items ?_ ?_, ?_, trivial⟩, ?_, ?_, ?_, ?_⟩
  · exact appendItem_agree pbuf _ _ (by simp only [itemAt]; omega) (by simp only [itemAt]; omega)
      (by simp only [itemAt, dataAt]; omega)
  · exact appendItem_agree pbuf _ _ (by simp only [dataAt]; omega)
      (by simp only [itemAt, dataAt]; omega) (by simp only [dataAt]; omega)
  · rw [Nat.zero_add, Nat.zero_add, ← hnum, ← hoff]
    exact hstored
  · rw [hn, List.length_append, List.length_singleton]
    omega
  · rw [List.length_append, List.length_singleton]
    omega
  · rw [ho, caps_append]
    simp only [caps]
    omega
  · rw [hf, caps_append]
    simp only [caps, dataSize]
    omega

/-! ## Runs of writes -/

/-- The arguments of one call of `vendor_storage_write`. -/
structure Call where
  id : Nat
  pbuf : Mem
  size : Nat
  id_lt : id < 65536
  size_lt : size < 65536

/-- One call, together with the map of the values whose write returned 0. -/
def writeStep (L : Layout) (st : State × (Nat → Option (List UInt8))) (c : Call) :
    State × (Nat → Option (List UInt8)) :=
  let r := vendorStorageWrite L st.1 c.id c.pbuf c.size
  (r.2, if r.1 = 0 then Function.update st.2 c.id (some (c.pbuf.bytes 0 c.size)) else st.2)

/-- Where a run starts: the empty store over any memory and any medium, nothing written. -/
def writeStart (g : Mem) (dev : BlockDev) : State × (Nat → Option (List UInt8)) :=
  (⟨emptyStore g, dev⟩, fun _ => none)

/-- After the calls, `vendor_storage_read` returns the last value accepted for `id`. -/
def ReadsLastWrite (L : Layout) (g : Mem) (dev : BlockDev) (calls : List Call) (id : Nat)
    (pbuf : Mem) : Prop :=
  let st := calls.foldl (writeStep L) (writeStart g dev)
  match st.2 id with
  | some bs => (vendorStorageRead st.1.ram id pbuf 65535).1 = bs.length ∧
      (vendorStorageRead st.1.ram id pbuf 65535).2.bytes 0 bs.length = bs
  | none => (vendorStorageRead st.1.ram id pbuf 65535).1 = -1

/-- The two checks the source misses: a value rewritten in place stays inside the capacity of its
    item, and an item is only appended while the table of 126 items has room. -/
def Fits (g : Mem) (c : Call) : Prop :=
  match findItem g c.id (itemNum g) 0 with
  | some i => c.size ≤ capacity g i
  | none => freeSize g < alginSize c.size ∨ itemNum g < 126

instance (g : Mem) (c : Call) : Decidable (Fits g c) :=
  match h : findItem g c.id (itemNum g) 0 with
  | some i => decidable_of_iff (c.size ≤ capacity g i) (by simp only [Fits, h])
  | none => decidable_of_iff (freeSize g < alginSize c.size ∨ itemNum g < 126)
      (by simp only [Fits, h])

/-- The store represents the accepted writes. -/
def Tracks (st : State × (Nat → Option (List UInt8))) : Prop :=
  ∃ items, Represents st.1.ram items ∧ ∀ id, get id items = st.2 id

/-- A new item's value, under its own id, and every other value as before. -/
theorem get_concat_update (items : List Item) (e : Item) (h : ∀ x ∈ items, x.id ≠ e.id)
    (f : Nat → Option (List UInt8)) (hf : ∀ id, get id items = f id) (id : Nat) :
    get id (items ++ [e]) = Function.update f e.id (some e.val) id := by
  by_cases hid : id = e.id
  · subst hid
    rw [get_append_of_notMem _ h, Function.update_self, get, if_pos rfl]
  · rw [get_concat _ _ hid, Function.update_of_ne hid, hf]

theorem get_replace_update (xs ys : List Item) (e e' : Item) (h : ∀ x ∈ xs, x.id ≠ e.id)
    (he : e'.id = e.id) (f : Nat → Option (List UInt8)) (hf : ∀ id, get id (xs ++ e :: ys) = f id)
    (id : Nat) : get id (xs ++ e' :: ys) = Function.update f e.id (some e'.val) id := by
  by_cases hid : id = e.id
  · subst hid
    rw [get_append_of_notMem _ h, Function.update_self, get, if_pos he]
  · rw [get_replace _ _ _ _ he hid, Function.update_of_ne hid, hf]

variable {c : Call} {L : Layout} {st : State × (Nat → Option (List UInt8))}

theorem writeStep_of_accepted
    {s' : State} (h : vendorStorageWrite L st.1 c.id c.pbuf c.size = (0, s')) :
    writeStep L st c = (s', Function.update st.2 c.id (some (c.pbuf.bytes 0 c.size))) := by
  simp only [writeStep, h, if_true]

theorem writeStep_of_rejected
    (h : vendorStorageWrite L st.1 c.id c.pbuf c.size = (-1, st.1)) : writeStep L st c = st := by
  simp only [writeStep, h]
  rfl

/-- One call keeps the store in step with the map. -/
theorem writeStep_tracks (L : Layout) (st : State × (Nat → Option (List UInt8))) (c : Call)
    (h : Tracks st) (hfits : Fits st.1.ram c) : Tracks (writeStep L st c) := by
  obtain ⟨items, hrep, hget⟩ := h
  have hle := le_alginSize c.size_lt
  have hspec := findItem_spec st.1.ram c.id items hrep.stored
  rw [← hrep.num] at hspec
  simp only [Fits] at hfits
  rcases hspec with ⟨hnone, hall⟩ | ⟨xs, e, ys, rfl, he, hxs, hsome⟩
  · rw [hnone] at hfits
    by_cases hspace : alginSize c.size ≤ freeSize st.1.ram
    · have hfit : (c.pbuf.bytes 0 c.size).length ≤ alginSize c.size := by
        rw [Mem.length_bytes]; exact hle
      have hnum : itemNum st.1.ram < 126 := hfits.resolve_left (by omega)
      rw [writeStep_of_accepted (vendorStorageWrite_append L c.pbuf hnone hspace)]
      refine ⟨items ++ [⟨c.id, alginSize c.size, c.pbuf.bytes 0 c.size, hfit⟩], ?_, ?_⟩
      · exact (appendItem_represents c.pbuf hrep c.id_lt c.size_lt hspace hnum hfit).bumpHeader L
      · exact get_concat_update items _ hall st.2 hget
    · rw [writeStep_of_rejected (vendorStorageWrite_full L c.pbuf hnone hspace)]
      exact ⟨items, hrep, hget⟩
  · rw [hsome] at hfits
    simp only [Nat.zero_add] at hfits hsome
    rw [capacity_of_represents hrep] at hfits
    have hfit : (c.pbuf.bytes 0 c.size).length ≤ e.cap := by
      rw [Mem.length_bytes]; exact hfits
    rw [writeStep_of_accepted (vendorStorageWrite_found L c.pbuf hsome c.size_lt)]
    refine ⟨xs ++ ⟨e.id, e.cap, c.pbuf.bytes 0 c.size, hfit⟩ :: ys, ?_, ?_⟩
    · exact (updateItem_represents c.pbuf c.size hrep c.size_lt hfit).bumpHeader L
    · rw [← he] at hxs ⊢
      exact get_replace_update xs ys e ⟨e.id, e.cap, c.pbuf.bytes 0 c.size, hfit⟩ hxs rfl st.2 hget

theorem emptyStore_represents (g : Mem) : Represents (emptyStore g) [] := by
  refine ⟨trivial, ?_, by simp, ?_, ?_⟩
  · rfl
  · rfl
  · simp only [emptyStore, freeSize, Mem.u16_set16_same]
    rfl

/-- **The store is a map** along every run whose writes fit: what is read for an id is the last
    value accepted for it, and nothing if there is none. -/
theorem reads_last_write (L : Layout) (g : Mem) (dev : BlockDev) (calls : List Call)
    (hfits : Run.Along (writeStep L) (fun st c => Fits st.1.ram c) (writeStart g dev) calls)
    (id : Nat) (pbuf : Mem) : ReadsLastWrite L g dev calls id pbuf := by
  have hstart : Tracks (writeStart g dev) := ⟨[], emptyStore_represents g, fun _ => rfl⟩
  obtain ⟨items, hrep, hget⟩ := Run.along_invariant
    (fun st c h hc => writeStep_tracks L st c h hc) calls _ hstart hfits
  have hread := read_of_represents hrep id pbuf
  rw [hget] at hread
  exact hread

/-- A call that writes `size` times the byte `b` under `id`. -/
def fillCall (id : Nat) (b : UInt8) (size : Nat) (h : id < 65536 ∧ size < 65536) : Call :=
  ⟨id, fun _ => b, size, h.1, h.2⟩

/-- Two ids, the first one rewritten within its 64 bytes. -/
theorem reads_last_write_rewritten :
    Run.Along (writeStep Layout.emmc) (fun st c => Fits st.1.ram c)
      (writeStart Mem.zero ⟨Mem.zero, []⟩)
      [fillCall 1 1 10 (by decide), fillCall 2 2 64 (by decide), fillCall 1 3 64 (by decide)] ∧
    ReadsLastWrite Layout.emmc Mem.zero ⟨Mem.zero, []⟩
      [fillCall 1 1 10 (by decide), fillCall 2 2 64 (by decide), fillCall 1 3 64 (by decide)] 2
      Mem.zero := by
  have hfits : Run.Along (writeStep Layout.emmc) (fun st c => Fits st.1.ram c)
      (writeStart Mem.zero ⟨Mem.zero, []⟩)
      [fillCall 1 1 10 (by decide), fillCall 2 2 64 (by decide), fillCall 1 3 64 (by decide)] := by
    decide +kernel
  exact ⟨hfits, reads_last_write Layout.emmc Mem.zero ⟨Mem.zero, []⟩ _ hfits 2 Mem.zero⟩

/-- Rewriting id 1 with 65 bytes where it was given 64 changes what is read for id 2. -/
theorem grown_item_overwrites_next :
    ¬ ReadsLastWrite Layout.emmc Mem.zero ⟨Mem.zero, []⟩
      [fillCall 1 1 64 (by decide), fillCall 2 2 64 (by decide), fillCall 1 3 65 (by decide)] 2
      Mem.zero := by
  have hmap : (List.foldl (writeStep Layout.emmc) (writeStart Mem.zero ⟨Mem.zero, []⟩)
      [fillCall 1 1 64 (by decide), fillCall 2 2 64 (by decide), fillCall 1 3 65 (by decide)]).2 2
      = some (List.replicate 64 2) := by
    decide +kernel
  intro h
  exact absurd h.2 (by decide +kernel)

end Vendor
