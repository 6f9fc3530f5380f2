import RkUboot.Resource.Basic

set_option autoImplicit false

/-! # Looking up what was packed

The tool writes block after block, and every write keeps what lies in other blocks. So each file
ends up behind the table at the offset of its entry, and a lookup that compares the paths one after
the other stops at the right entry. The image must end within 2^22 blocks, or the tool fails. -/

namespace Resource

/-! ## Stored bytes -/

/-- The bytes `bs` are in the image file from `a` on. -/
def Stored (img : Image) (a : Nat) (bs : List UInt8) : Prop :=
  ∀ i (h : i < bs.length), a + i < img.size ∧ img.bytes (a + i) = bs[i]

/-- `img'` has not lost bytes of `img`, and the bytes in `P` are unchanged. -/
def Keeps (img img' : Image) (P : Nat → Prop) : Prop :=
  img.size ≤ img'.size ∧ ∀ x, P x → img'.bytes x = img.bytes x

section Stored

variable {img img' img'' : Image} {a n : Nat} {bs cs : List UInt8} {P Q : Nat → Prop}

theorem Keeps.trans (h : Keeps img img' P) (h' : Keeps img' img'' Q) (hQ : ∀ x, P x → Q x) :
    Keeps img img'' P :=
  ⟨h.1.trans h'.1, fun x hx => (h'.2 x (hQ x hx)).trans (h.2 x hx)⟩

theorem Keeps.mono (h : Keeps img img' P) (hQ : ∀ x, Q x → P x) : Keeps img img' Q :=
  ⟨h.1, fun x hx => h.2 x (hQ x hx)⟩

theorem Stored.keeps (h : Stored img a bs) (hk : Keeps img img' P)
    (hP : ∀ i < bs.length, P (a + i)) : Stored img' a bs := by
  intro i hi
  obtain ⟨hsize, hbyte⟩ := h i hi
  exact ⟨lt_of_lt_of_le hsize hk.1, (hk.2 _ (hP i hi)).trans hbyte⟩

theorem Stored.take_drop (hfirst : Stored img a (bs.take n)) (hrest : Stored img (a + n) (bs.drop n)) :
    Stored img a bs := by
  intro i hi
  by_cases hin : i < n
  · have := hfirst i (by rw [List.length_take]; omega)
    rwa [List.getElem_take] at this
  have := hrest (i - n) (by rw [List.length_drop]; omega)
  rw [List.getElem_drop] at this
  have hidx : n + (i - n) = i := by omega
  have hpos : a + n + (i - n) = a + i := by omega
  simpa only [hidx, hpos] using this

theorem Stored.append_left (h : Stored img a (bs ++ cs)) : Stored img a bs := by
  intro i hi
  have := h i (by rw [List.length_append]; omega)
  rwa [List.getElem_append_left hi] at this

/-- A memory into which the image was loaded has the bytes. -/
theorem Stored.has {m : Mem} {b : Nat} (h : Stored img a bs)
    (hm : ∀ x < img.size, m (b + x) = img.bytes x) : m.Has (b + a) bs := by
  rw [Mem.has_iff]
  intro i hi
  obtain ⟨hsize, hbyte⟩ := h i hi
  rw [Nat.add_assoc, hm _ hsize, hbyte]

end Stored

/-! ## What the writes do -/

/-- The bytes outside of the `n` blocks from `block` on. -/
def Outside (block n x : Nat) : Prop := x < 512 * block ∨ 512 * (block + n) ≤ x

variable {a len n : Nat}

section Writing

variable {img : Image} {block off : Nat} {data : List UInt8}

theorem storageWriteLba_ok (hblock : block < 2 ^ 22) (hlen : data.length = 512 * n) :
    ∃ img', storageWriteLba block data img = (true, img') ∧ Stored img' (512 * block) data ∧
      Keeps img img' (Outside block n) := by
  have hoff : block * 512 % 2 ^ 32 = 512 * block := by omega
  have hlow : ¬ 2 ^ 31 ≤ 512 * block := by omega
  simp only [storageWriteLba, hoff, if_neg hlow]
  refine ⟨_, rfl, ?_, le_max_left _ _, ?_⟩
  · intro i hi
    refine ⟨lt_of_lt_of_le ?_ (le_max_right _ _), Mem.store_apply_in _ _ _ _ hi⟩
    omega
  · intro x hx
    unfold Outside at hx
    exact Mem.store_apply_out (by omega)

theorem storageWriteLba_far (hlow : 2 ^ 22 ≤ block) (hhigh : block < 2 ^ 23) :
    storageWriteLba block data img = (false, img) := by
  have hoff : block * 512 % 2 ^ 32 = 512 * block := by omega
  have hfar : 2 ^ 31 ≤ 512 * block := by omega
  simp only [storageWriteLba, hoff, if_pos hfar]

theorem length_padTo_block (hpos : 0 < data.length) (hlen : data.length ≤ 512) :
    (Mem.padTo 512 data).length = 512 := by
  rw [Mem.length_padTo (by omega), Mem.alignUp]
  omega

/-- The image ends behind a block that was written. -/
theorem stored_block (h : Stored img a (Mem.padTo 512 data)) (hpos : 0 < data.length)
    (hlen : data.length ≤ 512) : a + 512 ≤ img.size := by
  have := (h 511 (by rw [length_padTo_block hpos hlen]; decide)).1
  omega

/-- At most a block of data goes to one block. -/
theorem writeData_eq (hpos : 0 < data.length) (hlen : data.length ≤ 512) :
    writeData block data img = storageWriteLba block (Mem.padTo 512 data) img := by
  by_cases hfull : data.length = 512
  · have hpad : Mem.padTo 512 data = data := by simp [Mem.padTo, Mem.alignUp, hfull]
    have htake : data.take 512 = data := List.take_of_length_le (by omega)
    simp only [writeData, hfull, hpad, Nat.reduceDiv, Nat.mul_one, one_ne_zero, if_false, htake,
      Nat.mod_self, if_true, ite_self]
  · have hdiv : data.length / 512 = 0 := Nat.div_eq_of_lt (by omega)
    have hmod : data.length % 512 ≠ 0 := by omega
    simp only [writeData, hdiv, if_true, Bool.true_eq_false, if_false, if_neg hmod, Nat.mul_zero,
      List.drop_zero, Nat.add_zero]

theorem writeData_ok (img : Image) (block : Nat) (data : List UInt8) (hblock : block < 2 ^ 22)
    (hpos : 0 < data.length) (hlen : data.length ≤ 512) :
    ∃ img', writeData block data img = (true, img') ∧ Stored img' (512 * block) (Mem.padTo 512 data) ∧
      Keeps img img' (Outside block 1) := by
  rw [writeData_eq hpos hlen]
  exact storageWriteLba_ok hblock (length_padTo_block hpos hlen)

theorem fixBlocks_spec (n : Nat) : n ≤ 512 * fixBlocks n ∧ 512 * fixBlocks n < n + 512 := by
  unfold fixBlocks
  omega

/-- A chunk of a file is not empty and fits in a block. -/
theorem length_chunk {i k : Nat} (hk : i + (k + 1) = fixBlocks data.length) :
    0 < ((data.drop (512 * i)).take 512).length ∧ ((data.drop (512 * i)).take 512).length ≤ 512 := by
  have hspec := fixBlocks_spec data.length
  rw [List.length_take, List.length_drop]
  omega

/-- The blocks from `off + i` on are written if they end within 2^22 blocks; what lies before them is
    kept in any case. -/
theorem writeBlocks_spec (k i : Nat) (img : Image) (hnear : off + i ≤ 2 ^ 22)
    (hk : i + k = fixBlocks data.length) :
    ∃ img', writeBlocks data off k i img = (decide (off + i + k ≤ 2 ^ 22), img') ∧
      Keeps img img' (· < 512 * (off + i)) ∧ (off + i + k ≤ 2 ^ 22 →
        Stored img' (512 * (off + i)) (data.drop (512 * i)) ∧
          Keeps img img' (Outside (off + i) k)) := by
  induction k generalizing i img with
  | zero =>
    have hspec := fixBlocks_spec data.length
    rw [Nat.add_zero, decide_eq_true hnear]
    refine ⟨img, rfl, ⟨le_rfl, fun _ _ => rfl⟩, fun _ => ⟨?_, le_rfl, fun _ _ => rfl⟩⟩
    rw [List.drop_of_length_le (by omega)]
    exact fun j hj => nomatch hj
  | succ k ih =>
    obtain ⟨hpos, hlen⟩ := length_chunk hk
    have hpad := length_padTo_block hpos hlen
    by_cases hlast : off + i = 2 ^ 22
    · refine ⟨img, ?_, ⟨le_rfl, fun _ _ => rfl⟩, fun hfit => by omega⟩
      rw [writeBlocks, writeData_eq (by omega) (by omega), storageWriteLba_far (by omega) (by omega),
        decide_eq_false (by omega)]
    obtain ⟨img₁, hwrite, hchunk, hkeeps₁⟩ := writeData_ok img (off + i)
      (Mem.padTo 512 ((data.drop (512 * i)).take 512)) (by omega) (by omega) (by omega)
    obtain ⟨img₂, hrun, hbefore, hfits⟩ := ih (i + 1) img₁ (by omega) (by omega)
    rw [show off + i + (k + 1) = off + (i + 1) + k by omega]
    refine ⟨img₂, by rw [writeBlocks, hwrite]; exact hrun, ?_, fun hfit => ?_⟩
    · exact (hkeeps₁.mono fun x hx => .inl hx).trans hbefore fun x hx => by omega
    obtain ⟨hrest, hkeeps₂⟩ := hfits hfit
    constructor
    · refine Stored.take_drop (n := 512) (hchunk.append_left.append_left.keeps hkeeps₂ ?_) ?_
      · intro j hj
        left
        omega
      · rw [List.drop_drop, show 512 * i + 512 = 512 * (i + 1) by omega,
          show 512 * (off + i) + 512 = 512 * (off + (i + 1)) by omega]
        exact hrest
    · refine (hkeeps₁.mono ?_).trans hkeeps₂ ?_ <;>
      · intro x hx
        unfold Outside at hx ⊢
        omega

theorem writeFile_spec (img : Image) (off : Nat) (data : List UInt8) (hnear : off ≤ 2 ^ 22) :
    ∃ img', writeFile off data img = (decide (off + fixBlocks data.length ≤ 2 ^ 22), img') ∧
      Keeps img img' (· < 512 * off) ∧ (off + fixBlocks data.length ≤ 2 ^ 22 →
        Stored img' (512 * off) data ∧ Keeps img img' (Outside off (fixBlocks data.length))) :=
  writeBlocks_spec _ 0 img hnear (Nat.zero_add _)

end Writing

/-! ## The table -/

/-- An entry of the table, with its file. -/
structure Record where
  path : List UInt8
  offset : Nat
  file : SrcFile

def Record.encode (r : Record) : List UInt8 := encodeEntry r.path r.offset r.file.data.length

/-- The entries that `writeIndexTbl` writes. -/
def records (root : List UInt8) : List SrcFile → Bool → Nat → List Record
  | [], _, _ => []
  | f :: fs, foundFdt, offset =>
    ⟨storedPath root foundFdt f, offset, f⟩ ::
      records root fs (foundFdt || isDtb f.name) (offset + fixBlocks f.data.length)

/-- The blocks of the files. -/
def contentBlocks (fs : List SrcFile) : Nat := (fs.map fun f => fixBlocks f.data.length).sum

variable {path : List UInt8} {r : Record}

section Table

variable {root : List UInt8} {fs : List SrcFile} {foundFdt : Bool} {off : Nat}

theorem records_file : (records root fs foundFdt off).map Record.file = fs := by
  induction fs generalizing foundFdt off with
  | nil => rfl
  | cons f fs ih => rw [records, List.map_cons, ih]

theorem length_records : (records root fs foundFdt off).length = fs.length := by
  rw [← List.length_map (f := Record.file), records_file]

/-- A file starts behind the table and ends with the content. -/
theorem records_offset (hr : r ∈ records root fs foundFdt off) :
    r.offset + fixBlocks r.file.data.length ≤ off + contentBlocks fs := by
  induction fs generalizing foundFdt off with
  | nil => cases hr
  | cons f fs ih =>
    rw [contentBlocks, List.map_cons, List.sum_cons, ← contentBlocks]
    rcases List.mem_cons.mp hr with rfl | hr
    · simp
    · have := ih hr
      omega

theorem zero_notMem_fixPath (h : 0 ∉ path) : 0 ∉ fixPath path := by
  unfold fixPath
  split
  · intro hmem
    exact h (.tail _ (.tail _ hmem))
  · exact h

theorem zero_notMem_stripRoot (h : 0 ∉ path) : 0 ∉ stripRoot root path := by
  have hdrop : 0 ∉ path.drop root.length := fun hmem => h (List.mem_of_mem_drop hmem)
  unfold stripRoot
  split
  · split
    · next heq =>
        rw [heq] at hdrop
        exact fun hmem => hdrop (.tail _ hmem)
    · exact hdrop
  · exact h

/-- A stored path is a C string. -/
theorem records_path (hr : r ∈ records root fs foundFdt off) : 0 ∉ r.path := by
  induction fs generalizing foundFdt off with
  | nil => cases hr
  | cons f fs ih =>
    rcases List.mem_cons.mp hr with rfl | hr
    · show 0 ∉ storedPath root foundFdt f
      unfold storedPath
      split
      · decide
      · exact zero_notMem_fixPath (zero_notMem_stripRoot f.chars)
    · exact ih hr

theorem length_encodeEntry (path : List UInt8) (offset size : Nat) :
    (encodeEntry path offset size).length = 268 := by
  simp only [encodeEntry, List.length_append, List.length_cons, List.length_nil, List.length_replicate,
    List.length_take, Mem.length_le32]
  omega

/-- The table and the files behind it are written if they end within 2^22 blocks; otherwise the tool
    fails. -/
theorem writeIndexTbl_spec (root : List UInt8) (fs : List SrcFile) (foundFdt : Bool) (i off : Nat)
    (img : Image) (htable : 1 + i + fs.length ≤ off) (hnear : off ≤ 2 ^ 22) :
    ∃ img', writeIndexTbl root fs i foundFdt off img
        = (decide (off + contentBlocks fs ≤ 2 ^ 22), img') ∧ (off + contentBlocks fs ≤ 2 ^ 22 →
      (∀ j (h : j < (records root fs foundFdt off).length),
        Stored img' (512 * (1 + (i + j))) (Mem.padTo 512 (records root fs foundFdt off)[j].encode) ∧
        Stored img' (512 * (records root fs foundFdt off)[j].offset)
          (records root fs foundFdt off)[j].file.data) ∧
      Keeps img img'
        (fun x => x < 512 * (1 + i) ∨ (512 * (1 + i + fs.length) ≤ x ∧ x < 512 * off))) := by
  induction fs generalizing foundFdt i off img with
  | nil =>
    rw [decide_eq_true (show off + contentBlocks [] ≤ 2 ^ 22 from hnear)]
    exact ⟨img, rfl, fun _ => ⟨fun j h => absurd h (Nat.not_lt_zero j), le_rfl, fun _ _ => rfl⟩⟩
  | cons f fs ih =>
    rw [List.length_cons] at htable
    rw [contentBlocks, List.map_cons, List.sum_cons, ← contentBlocks, ← Nat.add_assoc]
    have hspec := fixBlocks_spec f.data.length
    have hentry := length_encodeEntry (storedPath root foundFdt f) off f.data.length
    obtain ⟨img₁, hfile, -, hfits⟩ := writeFile_spec img off f.data hnear
    rw [writeIndexTbl, hfile]
    by_cases hfit : off + fixBlocks f.data.length ≤ 2 ^ 22
    swap
    · rw [decide_eq_false hfit, decide_eq_false (by omega)]
      exact ⟨img₁, rfl, fun h => by omega⟩
    obtain ⟨hdata₁, hkeeps₁⟩ := hfits hfit
    obtain ⟨img₂, hwrite, hentry₂, hkeeps₂⟩ := writeData_ok img₁ (1 + i)
      (encodeEntry (storedPath root foundFdt f) off f.data.length) (by omega) (by omega) (by omega)
    obtain ⟨img₃, hrun, hrecords⟩ := ih (foundFdt || isDtb f.name) (i + 1)
      (off + fixBlocks f.data.length) img₂ (by omega) hfit
    rw [decide_eq_true hfit]
    dsimp only
    rw [hwrite]
    refine ⟨img₃, hrun, fun hall => ?_⟩
    obtain ⟨hrest, hkeeps₃⟩ := hrecords hall
    constructor
    · -- The later writes go to later entries and later content.
      rintro (_ | j) hj
      · refine ⟨hentry₂.keeps hkeeps₃ fun x hx => .inl ?_,
          (hdata₁.keeps hkeeps₂ fun x hx => ?_).keeps hkeeps₃ fun x hx => .inr ?_⟩
        · rw [length_padTo_block (by omega) (by omega)] at hx
          omega
        · right
          omega
        · omega
      · have := hrest j (by simpa [records] using hj)
        rwa [show i + 1 + j = i + (j + 1) by omega] at this
    · refine ((hkeeps₁.mono ?_).trans hkeeps₂ ?_).trans hkeeps₃ ?_ <;>
      · intro x hx
        simp only [List.length_cons, Outside] at hx ⊢
        omega

end Table

/-! ## The order of the files -/

section Prepare

variable {imagePath : List UInt8}

theorem swapIfInBounds_perm (files : Array SrcFile) (i j : Nat) :
    (files.swapIfInBounds i j).toList.Perm files.toList := by
  unfold Array.swapIfInBounds
  split
  · split
    · exact Array.perm_iff_toList_perm.mp (Array.swap_perm _ _)
    · exact List.Perm.refl _
  · exact List.Perm.refl _

/-- Files are only exchanged. -/
theorem prepareLoop_toList_perm (imagePath : List UInt8) (files : Array SrcFile)
    (k i pos num : Nat) :
    (prepareLoop imagePath k files i pos num).1.toList.Perm files.toList := by
  induction k generalizing files i pos num with
  | zero => exact List.Perm.refl _
  | succ k ih =>
    unfold prepareLoop
    split
    · exact List.Perm.refl _
    next f hf =>
      split
      · exact List.Perm.refl _
      split
      · exact (ih ..).trans (swapIfInBounds_perm files pos i)
      split
      · exact (ih ..).trans (swapIfInBounds_perm files (num - 1) i)
      · exact ih ..

/-- All files stay if the image is not among them. -/
theorem prepareLoop_num (files : Array SrcFile) (k i pos num : Nat)
    (himage : ∀ f ∈ files.toList, fixPath imagePath ≠ fixPath f.name) :
    (prepareLoop imagePath k files i pos num).2 = num := by
  induction k generalizing files i pos num with
  | zero => rfl
  | succ k ih =>
    unfold prepareLoop
    split
    · rfl
    next f hf =>
      split
      · rfl
      split
      · have hperm := swapIfInBounds_perm files pos i
        exact ih _ _ _ _ (fun g hg => himage g (hperm.mem_iff.mp hg))
      · rw [if_neg (himage f (Array.mem_toList_iff.mpr (Array.mem_of_getElem? hf)))]
        exact ih _ _ _ _ himage

theorem prepare_perm (files : Array SrcFile)
    (himage : ∀ f ∈ files.toList, fixPath imagePath ≠ fixPath f.name) :
    (prepare imagePath files).Perm files.toList := by
  have hnum := prepareLoop_num files files.size 0 0 files.size himage
  have hperm := prepareLoop_toList_perm imagePath files files.size 0 0 files.size
  simp only [prepare]
  rw [hnum, List.take_of_length_le (by rw [hperm.length_eq, Array.length_toList])]
  exact hperm

end Prepare

/-! ## The lookup -/

section Lookup

variable {m header table : Mem} {a : Nat} {rs : List Record}

theorem strncmpEq_iff {p : List UInt8} (hn : path.length < n) (h0 : 0 ∉ path)
    (hp0 : 0 ∉ p) (hm : m.Has a (path ++ [0])) : strncmpEq m a p n = true ↔ p = path := by
  induction path generalizing a p n with
  | nil =>
    obtain ⟨n, rfl⟩ : ∃ k, n = k + 1 := ⟨n - 1, by rw [List.length_nil] at hn; omega⟩
    rw [List.nil_append, Mem.has_cons] at hm
    cases p with
    | nil => simp [strncmpEq, hm.1]
    | cons c p =>
      have hc : ¬ (0 : UInt8) = c := fun h => hp0 (h ▸ (.head _))
      simp [strncmpEq, hm.1, hc]
  | cons b path ih =>
    obtain ⟨n, rfl⟩ : ∃ k, n = k + 1 := ⟨n - 1, by rw [List.length_cons] at hn; omega⟩
    rw [List.cons_append, Mem.has_cons] at hm
    have hb : b ≠ 0 := fun h => h0 (h ▸ (.head _))
    cases p with
    | nil => simp [strncmpEq, hm.1, hb]
    | cons c p =>
      have := ih (a := a + 1) (p := p) (n := n) (by rw [List.length_cons] at hn; omega)
        (fun h => h0 (.tail _ h)) (fun h => hp0 (.tail _ h)) hm.2
      rw [strncmpEq, hm.1, Bool.and_eq_true, beq_iff_eq, this, List.cons.injEq, eq_comm (a := b)]

/-- The fields of an entry with a path that fits. -/
theorem entry_fields {offset size : Nat} (hpath : path.length < 256)
    (hm : m.Has a (encodeEntry path offset size)) :
    m.bytes a 4 = [69, 78, 84, 82] ∧ m.Has (a + 4) (path ++ [0]) ∧
      m.u32 (a + 260) = offset % 2 ^ 32 ∧ m.u32 (a + 264) = size % 2 ^ 32 := by
  have htake : path.take 255 = path := List.take_of_length_le (by omega)
  have hzero : List.replicate (256 - path.length) (0 : UInt8)
      = [0] ++ List.replicate (255 - path.length) 0 := by
    rw [← List.replicate_one, List.replicate_append_replicate]
    congr 1
    omega
  have hfill : 4 + (path.length + (256 - path.length)) = 260 := by omega
  rw [encodeEntry, htake, Mem.has_append, Mem.has_append, Mem.has_append] at hm
  obtain ⟨⟨⟨htag, hname⟩, hoff⟩, hsize⟩ := hm
  simp only [List.length_append, List.length_cons, List.length_nil, List.length_replicate,
    Mem.length_le32, Nat.zero_add, Nat.reduceAdd, hfill] at hname hoff hsize
  rw [hzero, ← List.append_assoc, Mem.has_append] at hname
  exact ⟨htag, hname.1, hoff.u32, hsize.u32⟩

/-- The lookup stops at the entry with the path. -/
theorem findEntry_record (hentries : ∀ j (h : j < rs.length), table.Has (a + 512 * j) rs[j].encode)
    (hlen : ∀ r ∈ rs, r.path.length < 256) (h0 : ∀ r ∈ rs, 0 ∉ r.path)
    (hnodup : (rs.map Record.path).Nodup) {t : Nat} (ht : t < rs.length) (k i : Nat) (hi : i ≤ t)
    (hk : i + k = rs.length) :
    findEntry table a rs[t].path k i
      = some (rs[t].offset % 2 ^ 32, rs[t].file.data.length % 2 ^ 32) := by
  induction k generalizing i with
  | zero => omega
  | succ k ih =>
    have hin : i < rs.length := by omega
    have hmem := List.getElem_mem hin
    obtain ⟨htag, hname, hoff, hsize⟩ := entry_fields (hlen _ hmem) (hentries i hin)
    have hcmp := strncmpEq_iff (hlen _ hmem) (h0 _ hmem) (h0 _ (List.getElem_mem ht)) hname
    rw [findEntry, if_neg (not_not.mpr htag)]
    rcases Nat.lt_or_eq_of_le hi with hlt | rfl
    · have hne : ¬ rs[t].path = rs[i].path := by
        intro heq
        have hdiff := List.pairwise_iff_getElem.mp hnodup i t (by simpa using hin) (by simpa using ht) hlt
        exact hdiff (by simpa using heq.symm)
      rw [if_neg (by rw [hcmp]; exact hne)]
      exact ih (i + 1) hlt (by omega)
    · rw [if_pos (hcmp.mpr rfl), hoff, hsize]

theorem length_encodeHeader (n : Nat) : (encodeHeader n).length = 16 := rfl

theorem writeHeader_ok (n : Nat) :
    ∃ img, writeData 0 (encodeHeader n) ⟨Mem.zero, 0⟩ = (true, img) ∧
      Stored img 0 (Mem.padTo 512 (encodeHeader n)) ∧ Keeps ⟨Mem.zero, 0⟩ img (Outside 0 1) :=
  writeData_ok _ 0 _ (by decide) (by rw [length_encodeHeader]; decide)
    (by rw [length_encodeHeader]; decide)

theorem header_fields (hn : n ≤ 65535) (hm : m.Has 0 (encodeHeader n)) :
    headerOk m = true ∧ m 8 = 1 ∧ tblEntryNum m = n := by
  simp only [encodeHeader, Mem.has_append, List.length_append, List.length_cons, List.length_nil,
    Mem.length_le16, Nat.zero_add, Nat.reduceAdd] at hm
  obtain ⟨⟨⟨⟨hmagic, hver⟩, htver⟩, hsizes⟩, hnum⟩ := hm
  simp only [Mem.has_cons] at hsizes
  refine ⟨decide_eq_true ⟨hmagic, hver.u16, hsizes.1, htver.u16, hsizes.2.2.1⟩, hsizes.1, ?_⟩
  exact hnum.u32_of_lt (by omega)

end Lookup

/-! ## Round trip -/

/-- The image is in `m` from `b` on. -/
def Loaded (m : Mem) (b : Nat) (img : Image) : Prop := ∀ x < img.size, m (b + x) = img.bytes x

/-- The entries of the image that is packed from `files`. -/
def packedRecords (imagePath root : List UInt8) (files : Array SrcFile) : List Record :=
  records root (prepare imagePath files) false (1 + (prepare imagePath files).length)

section RoundTrip

variable {img : Image} {rs : List Record} {r : Record}

/-- A complete image: the header, each entry, and each file at its offset. -/
structure Complete (img : Image) (rs : List Record) : Prop where
  num : rs.length ≤ 65535
  size : 512 * (1 + rs.length) ≤ img.size
  header : Stored img 0 (encodeHeader rs.length)
  entry : ∀ j (h : j < rs.length), Stored img (512 * (1 + j)) rs[j].encode
  content : ∀ r ∈ rs, Stored img (512 * r.offset) r.file.data
  near : ∀ r ∈ rs, r.offset + fixBlocks r.file.data.length ≤ 2 ^ 22
  path_lt : ∀ r ∈ rs, r.path.length < 256
  path_chars : ∀ r ∈ rs, 0 ∉ r.path
  nodup : (rs.map Record.path).Nodup

theorem Complete.near_lt (h : Complete img rs) (hr : r ∈ rs) :
    r.offset ≤ 2 ^ 22 ∧ r.file.data.length ≤ 2 ^ 31 := by
  have := fixBlocks_spec r.file.data.length
  have := h.near r hr
  omega

/-- `get_entry_ram` on a table of the image finds each entry. -/
theorem Complete.getEntryRam_eq (h : Complete img rs) (hr : r ∈ rs) {header table : Mem}
    (hheader : header.Has 0 (encodeHeader rs.length))
    (htable : ∀ j (hj : j < rs.length), table.Has (a + 512 * j) rs[j].encode)
    (hn : 512 * rs.length ≤ n) :
    getEntryRam header table a n r.path = some (r.offset, r.file.data.length) := by
  obtain ⟨hok, -, hnum⟩ := header_fields h.num hheader
  obtain ⟨t, ht, rfl⟩ := List.getElem_of_mem hr
  obtain ⟨hoff, hsize⟩ := h.near_lt hr
  unfold getEntryRam
  rw [hok, hnum, if_neg (by decide), if_neg (by omega),
    findEntry_record htable h.path_lt h.path_chars h.nodup ht _ 0 (Nat.zero_le t) (Nat.zero_add _),
    Nat.mod_eq_of_lt (by omega), Nat.mod_eq_of_lt (by omega)]

theorem Complete.getContentRam_eq (h : Complete img rs) (hr : r ∈ rs) {buf : Mem}
    (hload : Loaded buf 0 img) (hlen : img.size ≤ len) (hlen64 : len < 2 ^ 64) :
    getContentRam buf len r.path = some (512 * r.offset, r.file.data.length) ∧
      buf.Has (512 * r.offset) r.file.data := by
  have hheader := h.header.has hload
  obtain ⟨hoff, -⟩ := h.near_lt hr
  have hsize := h.size
  have hone : (buf 8).toNat * 512 = 512 := by rw [(header_fields h.num hheader).2.1]; rfl
  have hleft : (len + 2 ^ 64 - 512) % 2 ^ 64 = len - 512 := by omega
  refine ⟨?_, by simpa using (h.content r hr).has hload⟩
  unfold getContentRam
  simp only [hone, hleft]
  rw [h.getEntryRam_eq hr hheader ?_ (by omega), Option.map_some, Nat.mod_eq_of_lt (by omega),
    Nat.mul_comm]
  intro j hj
  have := (h.entry j hj).has hload
  rwa [show 0 + 512 * (1 + j) = 512 + 512 * j by omega] at this

theorem Complete.getContent_eq (h : Complete img rs) (hr : r ∈ rs) {ptnBase baseOffset base : Nat}
    {dev : BlockDev} {memalign : Nat → Bool} (hmem : memalign (rs.length * 512) = true)
    (hbase : base = if baseOffset = 0 then ptnBase else baseOffset)
    (hpos : 0 < base) (hint : base < 2 ^ 31) (hdev : dev.script = [])
    (hload : Loaded dev.disk (512 * base) img) :
    getContent memalign ptnBase baseOffset dev r.path = some (r.offset + base, r.file.data.length) ∧
      dev.disk.Has (512 * (r.offset + base)) r.file.data := by
  have hdisk := h.header.has hload
  have hheader : (Mem.zero.copy 0 dev.disk (512 * base) (512 * 1)).Has 0 (encodeHeader rs.length) :=
    Mem.Has.copy hdisk (by rw [length_encodeHeader]; decide)
  obtain ⟨hok, hone, hnum⟩ := header_fields h.num hheader
  obtain ⟨hoff, -⟩ := h.near_lt hr
  have hn := h.num
  constructor
  · unfold getContent getEntry
    simp only [← hbase]
    rw [if_neg (by omega), BlockDev.read_of_nil _ _ _ _ hdev]
    dsimp only
    rw [hok, hnum, hone, hmem, if_neg (by decide), if_neg (by omega), if_neg (by decide),
      BlockDev.read_of_nil _ _ _ _ hdev]
    dsimp only
    rw [h.getEntryRam_eq hr hheader ?_ (by omega), Option.map_some, Nat.mod_eq_of_lt (by omega)]
    intro j hj
    rw [Mem.has_iff]
    intro i hi
    have hentry := Mem.has_iff.mp ((h.entry j hj).has hload) i hi
    have hlen : rs[j].encode.length = 268 := length_encodeEntry ..
    rw [hlen] at hi
    rw [Mem.copy_apply_in (by omega) (by omega), ← hentry]
    congr 1
    show 512 * (base + 1) + _ = _
    omega
  · have := (h.content r hr).has hload
    rwa [show 512 * base + 512 * r.offset = 512 * (r.offset + base) by omega] at this

end RoundTrip

section Pack

variable {imagePath root : List UInt8} {files : Array SrcFile}

theorem contentBlocks_perm {fs gs : List SrcFile} (h : fs.Perm gs) :
    contentBlocks fs = contentBlocks gs := (h.map _).sum_eq

/-- The tool succeeds exactly if the image has at most 2^22 blocks; then the image is complete. -/
theorem packImage_spec (hn : files.size ≤ 65535)
    (himage : ∀ f ∈ files.toList, fixPath imagePath ≠ fixPath f.name)
    (hnodup : ((packedRecords imagePath root files).map Record.path).Nodup)
    (hpath : ∀ r ∈ packedRecords imagePath root files, r.path.length < 256) :
    ∃ img, packImage imagePath root files
        = (decide (1 + files.size + contentBlocks files.toList ≤ 2 ^ 22), img) ∧
      (1 + files.size + contentBlocks files.toList ≤ 2 ^ 22 →
        Complete img (packedRecords imagePath root files)) := by
  have hperm := prepare_perm files himage
  have hlen : (prepare imagePath files).length = files.size := by
    rw [hperm.length_eq, Array.length_toList]
  have hrlen : (packedRecords imagePath root files).length = files.size := length_records.trans hlen
  rw [← contentBlocks_perm hperm]
  obtain ⟨img₀, hheader, hstored, -⟩ := writeHeader_ok files.size
  obtain ⟨img, hrun, htable⟩ := writeIndexTbl_spec root (prepare imagePath files) false 0
    (1 + (prepare imagePath files).length) img₀ (by omega) (by omega)
  rw [hlen] at hrun
  refine ⟨img, by simpa only [packImage, hlen, hheader] using hrun, fun hfit => ?_⟩
  obtain ⟨hrecords, hkeeps⟩ := htable (by omega)
  refine ⟨by omega, ?_, ?_, ?_, ?_, ?_, hpath, fun r hr => records_path hr, hnodup⟩
  · -- The last block of the table was written, or the header if there is no entry.
    rcases Nat.eq_zero_or_pos files.size with hnone | hsome
    · have hblock := stored_block hstored (by rw [length_encodeHeader]; decide)
        (by rw [length_encodeHeader]; decide)
      have := hkeeps.1
      omega
    · have hentry : ∀ r : Record, r.encode.length = 268 := fun r => length_encodeEntry ..
      have hlast := (hrecords (files.size - 1) (by rw [length_records]; omega)).1
      have hblock := stored_block hlast (by rw [hentry]; decide) (by rw [hentry]; decide)
      omega
  · rw [hrlen]
    exact hstored.append_left.keeps hkeeps fun i hi => .inl (by rw [length_encodeHeader] at hi; omega)
  · intro j hj
    have := (hrecords j hj).1.append_left
    rwa [Nat.zero_add] at this
  · intro r hr
    obtain ⟨j, hj, rfl⟩ := List.getElem_of_mem hr
    exact (hrecords j hj).2
  · intro r hr
    have := records_offset hr
    omega

end Pack

/-- **Round trip of the resource image.** For at most 65535 files, none of them the image, whose
    stored paths are distinct and fit in an entry, the tool succeeds exactly if the image has at most
    2^22 blocks. Then each file has its entry, and looking up its path gives its size and its bytes, in
    memory, and on the storage if there is room for the index table. -/
theorem getContent_packImage (imagePath root : List UInt8) (files : Array SrcFile)
    (hn : files.size ≤ 65535)
    (himage : ∀ f ∈ files.toList, fixPath imagePath ≠ fixPath f.name)
    (hnodup : ((packedRecords imagePath root files).map Record.path).Nodup)
    (hpath : ∀ r ∈ packedRecords imagePath root files, r.path.length < 256) :
    ((packedRecords imagePath root files).map Record.file).Perm files.toList ∧
    ((packImage imagePath root files).1 = true ↔
      1 + files.size + contentBlocks files.toList ≤ 2 ^ 22) ∧
    (∀ img, packImage imagePath root files = (true, img) →
      ∀ r ∈ packedRecords imagePath root files,
        (∀ buf len, Loaded buf 0 img → img.size ≤ len → len < 2 ^ 64 → ∃ a,
          getContentRam buf len r.path = some (a, r.file.data.length) ∧ buf.Has a r.file.data) ∧
        (∀ memalign : Nat → Bool, memalign (files.size * 512) = true →
          ∀ ptnBase baseOffset base dev, base = (if baseOffset = 0 then ptnBase else baseOffset) →
          0 < base → base < 2 ^ 31 → BlockDev.script dev = [] → Loaded dev.disk (512 * base) img → ∃ o,
          getContent memalign ptnBase baseOffset dev r.path = some (o, r.file.data.length) ∧
            dev.disk.Has (512 * o) r.file.data)) := by
  obtain ⟨img', hpack, hcomplete⟩ := packImage_spec hn himage hnodup hpath
  have hfiles : ((packedRecords imagePath root files).map Record.file).Perm files.toList := by
    rw [packedRecords, records_file]
    exact prepare_perm files himage
  have hlength : (packedRecords imagePath root files).length = files.size := by
    simpa using hfiles.length_eq
  rw [hpack]
  refine ⟨hfiles, decide_eq_true_iff, ?_⟩
  intro img hrun r hr
  obtain ⟨hfit, rfl⟩ := Prod.mk.inj hrun
  have hcomplete := hcomplete (of_decide_eq_true hfit)
  constructor
  · intro buf len hload hlen hlen64
    exact ⟨_, hcomplete.getContentRam_eq hr hload hlen hlen64⟩
  · intro memalign hmem ptnBase baseOffset base dev hbase hpos hint hdev hload
    rw [← hlength] at hmem
    exact ⟨_, hcomplete.getContent_eq hr hmem hbase hpos hint hdev hload⟩

/-- Two files, the second of them a device tree. -/
def logoAndDtb : Array SrcFile :=
  #[⟨[97, 46, 98, 109, 112], [1, 2, 3], (by decide : 3 < 5), fun h => absurd h (by decide), by decide⟩,
    ⟨[98, 46, 100, 116, 98], [], (by decide : 3 < 5), fun h => absurd h (by decide),
      (by decide : 0 < 2 ^ 31)⟩]

/-- A heap of 2 MiB has room for the two entries. -/
theorem getContent_packImage_logoAndDtb :
    (packImage [105] [] logoAndDtb).1 = true ∧
    ∀ img, packImage [105] [] logoAndDtb = (true, img) →
      ∃ o, getContent (fun n => decide (n ≤ 2 ^ 21)) 0 1 ⟨fun x => img.bytes (x - 512), []⟩
          [97, 46, 98, 109, 112] = some (o, 3) ∧
        Mem.Has (fun x => img.bytes (x - 512)) (512 * o) [1, 2, 3] := by
  obtain ⟨-, hsucceeds, hlookup⟩ := getContent_packImage [105] [] logoAndDtb (by decide)
    (by decide) (by decide) (by decide)
  refine ⟨hsucceeds.mpr (by decide), fun img hrun => ?_⟩
  exact (hlookup img hrun ⟨[97, 46, 98, 109, 112], 3, logoAndDtb[0]⟩ (.tail _ (.head _))).2 _ (by decide)
    0 1 1 ⟨fun x => img.bytes (x - 512), []⟩ (by decide) (by decide) (by decide) rfl
    (fun x _ => by show img.bytes (512 * 1 + x - 512) = _; rw [Nat.add_sub_cancel_left])

/-- A single file that reaches behind the last block: the tool gives up within the file, before it
    writes the entry, and nothing is found. -/
theorem packImage_single_far {imagePath root : List UInt8} {f : SrcFile}
    (himage : fixPath imagePath ≠ fixPath f.name) (hfar : 2 ^ 22 < 2 + fixBlocks f.data.length) :
    (packImage imagePath root #[f]).1 = false ∧
    getContentRam (packImage imagePath root #[f]).2.bytes len path = none := by
  have hprepare : prepare imagePath #[f] = [f] :=
    List.perm_singleton.mp (prepare_perm #[f] (by simpa using himage))
  obtain ⟨img₀, hheader, hstored, hkeeps₀⟩ := writeHeader_ok 1
  obtain ⟨img₁, hfile, hkeeps₁, -⟩ := writeFile_spec img₀ 2 f.data (by decide)
  rw [decide_eq_false (Nat.not_le.2 hfar)] at hfile
  have hrun : packImage imagePath root #[f] = (false, img₁) := by
    simp only [packImage, hprepare, List.length_singleton, hheader, writeIndexTbl, Nat.reduceAdd,
      hfile]
  rw [hrun]
  refine ⟨rfl, ?_⟩
  have hkept := hstored.append_left.keeps hkeeps₁ fun i hi => by
    rw [length_encodeHeader] at hi
    omega
  obtain ⟨hok, hone, hnum⟩ := header_fields (by decide)
    (hkept.has (m := img₁.bytes) (b := 0) fun x _ => by rw [Nat.zero_add])
  have htag : img₁.bytes 512 = 0 := (hkeeps₁.2 512 (by decide)).trans (hkeeps₀.2 512 (by right; decide))
  have hmiss : img₁.bytes.bytes 512 4 ≠ [69, 78, 84, 82] := by
    intro heq
    have htag' : img₁.bytes.Has 512 [69, 78, 84, 82] := heq
    have hbyte := Mem.has_iff.mp htag' 0 (by decide)
    rw [Nat.add_zero, htag] at hbyte
    cases hbyte
  have hblock : (1 : UInt8).toNat * 512 = 512 := rfl
  simp only [getContentRam, getEntryRam, hok, hone, hnum, findEntry, Bool.true_eq_false,
    Nat.mul_zero, Nat.add_zero, hblock, hmiss, ne_eq, not_false_eq_true, if_true, ite_self,
    Option.map_none]

/-- A file of 2^22 blocks is lost. -/
theorem getContentRam_packImage_lost : ∃ f : SrcFile,
    f.name = [97, 46, 98, 109, 112] ∧ f.data.length = 2 ^ 31 - 1 ∧
    (packImage [105] [] #[f]).1 = false ∧
    getContentRam (packImage [105] [] #[f]).2.bytes (2 ^ 31) [97, 46, 98, 109, 112] = none := by
  obtain ⟨data, hdata⟩ : ∃ data : List UInt8, data.length = 2 ^ 31 - 1 :=
    ⟨List.replicate (2 ^ 31 - 1) 0, List.length_replicate⟩
  refine ⟨⟨[97, 46, 98, 109, 112], data, by decide, by decide, by omega⟩, rfl, hdata, ?_⟩
  refine packImage_single_far (by show ([105] : List UInt8) ≠ [97, 46, 98, 109, 112]; decide) ?_
  rw [hdata]
  decide

end Resource
