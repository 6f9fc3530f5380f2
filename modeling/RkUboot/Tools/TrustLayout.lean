import RkUboot.Tools.TrustMerger

set_option autoImplicit false

/-! # Layout of the trust image

The tool cuts the numbers of an input down to 32 bits: `Component.entry` is what it makes of a
component. The main theorem says when its image is still right. There has to be room for the
metadata of all components in the header, which is the case for 15 of them, while the tool takes up
to 32; and no number may be changed by the cut. -/

namespace TrustMerger

/-! ## From the files to the entries -/

/-- What the tool keeps of a component. -/
def Component.entry (c : Component) : BlEntry :=
  ⟨c.id, c.file, UInt32.ofNat c.addr, UInt32.ofNat c.offset, UInt32.ofNat c.size⟩

variable {es : List BlEntry} {m m' out outBuf : Mem} {i off pbuf pos size x : Nat}

section Entries

variable {heap : Mem} {file : List UInt8} {id : UInt32}

/-- Inside of what was read the buffer is the file. -/
theorem fileBuffer_agree (file : List UInt8) (heap : Mem) :
    (fileBuffer file heap).AgreeOn (Mem.ofList file) 0 (getFileSize file) := by
  intro x _ hx
  rw [fileBuffer, if_pos hx]
  rfl

theorem u64_congr {a : Nat} (h : m.AgreeOn m' a (a + 8)) : u64 m a = u64 m' a := by
  rw [u64, u64, Mem.AgreeOn.u32 (h.mono le_rfl (by omega)),
    Mem.AgreeOn.u32 (h.mono (by omega) (by omega))]

/-- The headers of a class are read from the bytes that it says. -/
structure ElfClass.Local (k : ElfClass) : Prop where
  ident : 5 ≤ k.ehdrEnd
  phoff : ∀ {m m' : Mem}, m.AgreeOn m' 0 k.ehdrEnd → k.phoff m = k.phoff m'
  phentsize : ∀ {m m' : Mem}, m.AgreeOn m' 0 k.ehdrEnd → k.phentsize m = k.phentsize m'
  phnum : ∀ {m m' : Mem}, m.AgreeOn m' 0 k.ehdrEnd → k.phnum m = k.phnum m'
  phdr : ∀ {m m' : Mem} {a : Nat}, m.AgreeOn m' a (a + k.phdrEnd) → k.phdr m a = k.phdr m' a

theorem elf64_local : elf64.Local where
  ident := by decide
  phoff h := u64_congr (h.mono (by decide) (by decide))
  phentsize h := Mem.AgreeOn.u16 (h.mono (by decide) (by decide))
  phnum h := Mem.AgreeOn.u16 (h.mono (by decide) (by decide))
  phdr {m m' a} h := by
    have hend : elf64.phdrEnd = 40 := rfl
    simp only [elf64]
    rw [u64_congr (h.mono (by omega) (by omega)), u64_congr (h.mono (by omega) (by omega)),
      u64_congr (h.mono (by omega) (by omega))]

theorem elf32_local : elf32.Local where
  ident := by decide
  phoff h := Mem.AgreeOn.u32 (h.mono (by decide) (by decide))
  phentsize h := Mem.AgreeOn.u16 (h.mono (by decide) (by decide))
  phnum h := Mem.AgreeOn.u16 (h.mono (by decide) (by decide))
  phdr {m m' a} h := by
    have hend : elf32.phdrEnd = 20 := rfl
    simp only [elf32]
    rw [Mem.AgreeOn.u32 (h.mono (by omega) (by omega)), Mem.AgreeOn.u32 (h.mono (by omega) (by omega)),
      Mem.AgreeOn.u32 (h.mono (by omega) (by omega))]

theorem elfClass_local (buf : Mem) : (elfClass buf).Local := by
  unfold elfClass
  split
  · exact elf64_local
  · exact elf32_local

theorem headersInside_iff {buf : Mem} :
    headersInside buf size = true ↔ (elfClass buf).ehdrEnd ≤ size ∧
      ∀ i < (elfClass buf).phnum buf, (elfClass buf).phdrAt buf i + 4 ≤ size ∧
        (buf.u32 ((elfClass buf).phdrAt buf i) = 1 →
          (elfClass buf).phdrAt buf i + (elfClass buf).phdrEnd ≤ size) := by
  simp only [headersInside, Bool.and_eq_true, decide_eq_true_eq, List.all_eq_true, List.mem_range,
    Bool.or_eq_true, Bool.not_eq_true', decide_eq_false_iff_not, ← Decidable.imp_iff_not_or]

/-- Two memories that agree where the headers are have the same segments. -/
theorem segments_congr (h : m.AgreeOn m' 0 size)
    (hinside : headersInside m size = true) : segments m = segments m' := by
  obtain ⟨hehdr, hphdrs⟩ := headersInside_iff.1 hinside
  have hlocal := elfClass_local m
  have hident := hlocal.ident
  have hclass : elfClass m = elfClass m' := by
    unfold elfClass
    rw [h 4 (Nat.zero_le _) (by omega)]
  have hagree := h.mono le_rfl hehdr
  have hat : ∀ i, (elfClass m).phdrAt m i = (elfClass m).phdrAt m' i := by
    intro i
    rw [ElfClass.phdrAt, ElfClass.phdrAt, hlocal.phoff hagree, hlocal.phentsize hagree]
  unfold segments
  rw [← hclass, ← hlocal.phnum hagree]
  refine List.filterMap_congr (fun i hi => ?_)
  obtain ⟨htype, hrest⟩ := hphdrs i (List.mem_range.1 hi)
  have hu32 : m.u32 ((elfClass m).phdrAt m i) = m'.u32 ((elfClass m).phdrAt m i) :=
    Mem.AgreeOn.u32 (h.mono (Nat.zero_le _) htype)
  unfold ElfClass.segment
  rw [← hat, ← hu32]
  split
  next hload => rw [hlocal.phdr (h.mono (Nat.zero_le _) (hrest hload))]
  · rfl

/-- What is recognised as an ELF file is one, unless the headers are cut off. -/
theorem isElf_of_magic (hmagic : (fileBuffer file heap).u32 0 = elfMagic)
    (hinside : headersInside (fileBuffer file heap) (getFileSize file) = true) : isElf file = true := by
  have hehdr := (headersInside_iff.1 hinside).1
  have hident := (elfClass_local (fileBuffer file heap)).ident
  refine decide_eq_true ⟨by omega, ?_⟩
  rw [← hmagic]
  exact (Mem.AgreeOn.u32 ((fileBuffer_agree file heap).mono le_rfl (by omega))).symm

theorem not_isElf_of_magic (hmagic : (fileBuffer file heap).u32 0 ≠ elfMagic) :
    isElf file = false := by
  refine decide_eq_false (fun h => hmagic ?_)
  rw [← h.2]
  exact Mem.AgreeOn.u32 ((fileBuffer_agree file heap).mono le_rfl (by omega))

/-- The check of the loops over the entries. -/
def Small (es : List BlEntry) : Prop := ∀ e ∈ es, e.alignSize ≤ bl3xFilesizeMax

theorem segmentEntries_eq (ps : List Phdr)
    (h : segmentEntries id file ps = some es) :
    es = ps.map (segmentEntry id file) ∧ Small es := by
  induction ps generalizing es with
  | nil =>
    obtain rfl : [] = es := by simpa [segmentEntries] using h
    exact ⟨rfl, fun e he => absurd he List.not_mem_nil⟩
  | cons p ps ih =>
    rw [segmentEntries] at h
    split at h
    · cases h
    next hmax =>
      obtain ⟨rest, hrest, rfl⟩ := Option.map_eq_some_iff.1 h
      obtain ⟨rfl, hsmall⟩ := ih hrest
      exact ⟨rfl, List.forall_mem_cons.2 ⟨Nat.le_of_not_lt hmax, hsmall⟩⟩

theorem filterElf_eq {r : Option (List BlEntry)} (h : filterElf heap id file = some r) :
    isElf file = false ∧ r = none ∨
      isElf file = true ∧ ∃ es, r = some es ∧ Small es ∧
        es = (segments (Mem.ofList file)).map (segmentEntry id file) := by
  simp only [filterElf] at h
  split at h
  next hmagic => exact .inl ⟨not_isElf_of_magic hmagic, (Option.some.inj h).symm⟩
  next hmagic =>
    split at h
    · cases h
    next hinside =>
      split at h
      · cases h
      split at h
      · cases h
      obtain ⟨es, hes, rfl⟩ := Option.map_eq_some_iff.1 h
      obtain ⟨heq, hsmall⟩ := segmentEntries_eq _ hes
      have hinside' := Bool.eq_true_of_not_eq_false hinside
      rw [segments_congr (fileBuffer_agree file heap) hinside'] at heq
      exact .inr ⟨isElf_of_magic (not_not.1 hmagic) hinside', es, rfl, hsmall, heq⟩

theorem fileEntries_eq {s : Section} (h : fileEntries heap id s = some es) :
    es = (components id s).map Component.entry ∧ Small es := by
  obtain ⟨sec, addr, file⟩ := s
  cases sec with
  | false =>
    obtain rfl : [] = es := by simpa [fileEntries] using h
    exact ⟨rfl, fun e he => absurd he List.not_mem_nil⟩
  | true =>
    cases file with
    | none => exact absurd h (by simp [fileEntries])
    | some file =>
      simp only [fileEntries, Bool.true_eq_false, if_false] at h
      split at h
      · cases h
      next entries helf =>
        obtain rfl := Option.some.inj h
        rcases filterElf_eq helf with ⟨-, hnone⟩ | ⟨hisElf, es, hes, hsmall, heq⟩
        · cases hnone
        obtain rfl := Option.some.inj hes
        refine ⟨?_, hsmall⟩
        simp only [components, hisElf, if_true, List.map_map]
        exact heq
      next hraw =>
        split at h
        · cases h
        next hmax =>
          obtain rfl := Option.some.inj h
          rcases filterElf_eq hraw with ⟨hisElf, -⟩ | ⟨-, es, hes, -⟩
          · refine ⟨?_, fun e he => ?_⟩
            · simp only [components, hisElf, Bool.false_eq_true, if_false, List.map_cons,
                List.map_nil, Component.entry, UInt32.ofNat_toNat]
              rfl
            · rw [List.mem_singleton.1 he]
              exact Nat.le_of_not_lt hmax
          · cases hes

/-- **The entries of the tool** are the components, cut down to 32 bits. -/
theorem collect_eq {opts : Options} (bs : List Bl3x)
    (h : collect heap opts bs = some es) :
    es = (bs.flatMap (fun b => components b.id (opts.bl3x b))).map Component.entry ∧ Small es := by
  induction bs generalizing es with
  | nil =>
    obtain rfl : [] = es := by simpa [collect] using h
    exact ⟨rfl, fun e he => absurd he List.not_mem_nil⟩
  | cons b bs ih =>
    rw [collect] at h
    split at h
    next es' rest hfile hrest =>
      obtain rfl := Option.some.inj h
      obtain ⟨rfl, hsmall⟩ := fileEntries_eq hfile
      obtain ⟨rfl, hsmall'⟩ := ih hrest
      rw [List.flatMap_cons, List.map_append]
      exact ⟨rfl, List.forall_mem_append.2 ⟨hsmall, hsmall'⟩⟩
    · cases h

end Entries

/-! ## The two loops over the entries -/

variable {e : BlEntry} {sha256 : List UInt8 → Mem}

section Loops

/-- The component with its padding, as the tool takes it. -/
def BlEntry.image (e : BlEntry) : List UInt8 :=
  Mem.padTo 2048 ((Mem.ofList e.file).bytes e.offset.toNat e.size.toNat)

/-- Where component `j` goes, from `off` on. -/
def place (off : Nat) (es : List BlEntry) (j : Nat) : Nat :=
  off + ((es.take j).map BlEntry.alignSize).sum

@[simp] theorem place_zero (off : Nat) (es : List BlEntry) : place off es 0 = off := by
  simp [place]

@[simp] theorem place_succ (off : Nat) (e : BlEntry) (es : List BlEntry) (j : Nat) :
    place off (e :: es) (j + 1) = place (off + e.alignSize) es j := by
  simp [place, Nat.add_assoc]

theorem alignSize_eq (h : e.size.toNat ≤ bl3xFilesizeMax) :
    e.alignSize = Mem.alignUp 2048 e.size.toNat := by
  simp only [bl3xFilesizeMax] at h
  unfold BlEntry.alignSize doAlign Mem.alignUp
  split <;> omega

theorem length_image (e : BlEntry) : e.image.length = Mem.alignUp 2048 e.size.toNat := by
  rw [BlEntry.image, Mem.length_padTo (by decide), Mem.length_bytes]

/-- A component that is read is in its file, and is padded as it should be. -/
theorem readComponent_eq {data : List UInt8} (h : readComponent e = some data) :
    e.size.toNat ≤ bl3xFilesizeMax ∧ e.offset.toNat + e.size.toNat ≤ e.file.length ∧
      data = e.image := by
  unfold readComponent at h
  split at h
  · cases h
  next hover =>
    split at h
    · cases h
    next hinside =>
      have hsize : e.size.toNat ≤ bl3xFilesizeMax := by omega
      refine ⟨hsize, by omega, ?_⟩
      rw [← Option.some.inj h, alignSize_eq hsize, BlEntry.image, Mem.padTo, Mem.length_bytes]

/-- Outside of the hashes and before the components nothing changes. -/
theorem saveComponents_frame (es : List BlEntry) (h : saveComponents sha256 es i pbuf outBuf = some out)
    (hx : x < pbuf)
    (hout : ∀ j < es.length, x < 800 + 48 * (i + j) ∨ 800 + 48 * (i + j) + 32 ≤ x) :
    out x = outBuf x := by
  induction es generalizing i pbuf outBuf with
  | nil => rw [← Option.some.inj h]
  | cons e es ih =>
    rw [saveComponents] at h
    split at h
    · cases h
    next data hread =>
      have hfirst := hout 0 (by simp)
      rw [ih h (by omega) (fun j hj => ?_)]
      · rw [Mem.store_apply_out (.inl hx), Mem.copy_apply_out (by omega)]
      · have hnext := hout (j + 1) (by simpa using hj)
        omega

/-- What is known of component `i` after the loop. -/
structure Saved (sha256 : List UInt8 → Mem) (out : Mem) (i pos : Nat) (e : BlEntry) : Prop where
  size : e.size.toNat ≤ bl3xFilesizeMax
  inFile : e.offset.toNat + e.size.toNat ≤ e.file.length
  image : out.Has pos e.image
  hash : out.bytes (800 + 48 * i) 32 = (sha256 e.image).bytes 0 32

theorem Saved.congr {out' : Mem}
    (h : Saved sha256 out i pos e) (hhash : out.AgreeOn out' (800 + 48 * i) (800 + 48 * i + 32))
    (himage : out.AgreeOn out' pos (pos + e.alignSize)) : Saved sha256 out' i pos e where
  size := h.size
  inFile := h.inFile
  image := by
    have hlen := length_image e
    have halign := alignSize_eq h.size
    exact h.image.congr (fun k hk => (himage _ (by omega) (by omega)).symm)
  hash := by rw [← h.hash, Mem.AgreeOn.bytes _ hhash]

/-- With all hashes in the header, each component is saved with its hash. -/
theorem saveComponents_saved (es : List BlEntry) (h : saveComponents sha256 es i pbuf outBuf = some out)
    (hhash : 800 + 48 * (i + es.length) ≤ 2048) (hpbuf : 2048 ≤ pbuf) :
    ∀ j (hj : j < es.length), Saved sha256 out (i + j) (place pbuf es j) es[j] := by
  induction es generalizing i pbuf outBuf with
  | nil => exact fun j hj => nomatch hj
  | cons e es ih =>
    rw [saveComponents] at h
    split at h
    · cases h
    next data hread =>
      obtain ⟨hsize, hinFile, rfl⟩ := readComponent_eq hread
      simp only [List.length_cons] at hhash
      intro j hj
      cases j with
      | zero =>
        have hlen := length_image e
        have halign := alignSize_eq hsize
        simp only [List.getElem_cons_zero, place_zero, Nat.add_zero]
        refine ⟨hsize, hinFile, ?_, ?_⟩
        · rw [Mem.has_iff]
          intro k hk
          rw [saveComponents_frame es h (by omega) (fun j hj => by omega)]
          exact Mem.store_apply_in _ _ _ _ hk
        · refine Mem.bytes_congr _ _ _ _ _ (fun k hk => ?_)
          rw [saveComponents_frame es h (by omega) (fun j hj => by omega),
            Mem.store_apply_out (by omega),
            Mem.copy_apply_in (by omega) (by omega)]
          congr 1
          omega
      | succ j =>
        have hrest := ih h (by omega) (by omega) j (by simpa using hj)
        rw [place_succ, List.getElem_cons_succ, ← Nat.add_assoc, Nat.add_right_comm]
        exact hrest

/-- Outside of the fields that are entered nothing changes. -/
theorem putComponents_frame (sign : Nat) (es : List BlEntry) {gBuf : Mem}
    (hdata : ∀ j < es.length, x < 800 + 48 * (i + j) + 32 ∨ 800 + 48 * (i + j) + 36 ≤ x)
    (htable : ∀ j < es.length, x < sign + 256 + 16 * (i + j) ∨ sign + 256 + 16 * (i + j) + 12 ≤ x) :
    putComponents sign es i off gBuf x = gBuf x := by
  induction es generalizing i off gBuf with
  | nil => rfl
  | cons e es ih =>
    have hdata0 := hdata 0 (by simp)
    have htable0 := htable 0 (by simp)
    rw [putComponents, ih (fun j hj => ?_) (fun j hj => ?_)]
    · simp (disch := omega) only [Mem.set32_apply_ne]
    · have hnext := hdata (j + 1) (by simpa using hj)
      omega
    · have hnext := htable (j + 1) (by simpa using hj)
      omega

/-- The fields of component `i`. -/
structure Entered (sign : Nat) (m : Mem) (i pos : Nat) (e : BlEntry) : Prop where
  addr : m.u32 (800 + 48 * i + 32) = e.addr.toNat
  id : m.u32 (sign + 256 + 16 * i) = e.id.toNat
  storageAddr : m.u32 (sign + 256 + 16 * i + 4) = pos / 512
  imageSize : m.u32 (sign + 256 + 16 * i + 8) = e.alignSize / 512

theorem Entered.congr {sign : Nat} (h : Entered sign m i pos e)
    (hdata : m.AgreeOn m' (800 + 48 * i + 32) (800 + 48 * i + 36))
    (htable : m.AgreeOn m' (sign + 256 + 16 * i) (sign + 256 + 16 * i + 12)) :
    Entered sign m' i pos e where
  addr := by rw [← h.addr, Mem.AgreeOn.u32 hdata]
  id := by rw [← h.id, Mem.AgreeOn.u32 (htable.mono (by omega) (by omega))]
  storageAddr := by rw [← h.storageAddr, Mem.AgreeOn.u32 (htable.mono (by omega) (by omega))]
  imageSize := by rw [← h.imageSize, Mem.AgreeOn.u32 (htable.mono (by omega) (by omega))]

/-- The tables do not overlap, so each component keeps its fields. -/
theorem putComponents_entered (sign : Nat) (es : List BlEntry) (i off : Nat) (gBuf : Mem)
    (hsign : 800 + 48 * (i + es.length) ≤ sign) (hsmall : Small es)
    (hoff : off + (es.map BlEntry.alignSize).sum < 2 ^ 32) :
    ∀ j (hj : j < es.length), Entered sign (putComponents sign es i off gBuf) (i + j)
      (place off es j) es[j] := by
  induction es generalizing i off gBuf with
  | nil => exact fun j hj => nomatch hj
  | cons e es ih =>
    simp only [List.length_cons, List.map_cons, List.sum_cons] at hsign hoff
    have haddr := e.addr.toNat_lt
    have hid := e.id.toNat_lt
    intro j hj
    rw [putComponents]
    cases j with
    | zero =>
      simp only [List.getElem_cons_zero, place_zero, Nat.add_zero]
      refine Entered.congr (m := (((gBuf.set32 (800 + 48 * i + 32) e.addr.toNat).set32
        (sign + 256 + 16 * i) e.id.toNat).set32 (sign + 256 + 16 * i + 4) (off / 512)).set32
        (sign + 256 + 16 * i + 8) (e.alignSize / 512)) ?_ (fun x hlo hhi => ?_) (fun x hlo hhi => ?_)
      · refine ⟨?_, ?_, ?_, ?_⟩
        · simp (disch := omega) only [Mem.u32_set32_ne, Mem.u32_set32_same, Nat.mod_eq_of_lt]
        · simp (disch := omega) only [Mem.u32_set32_ne, Mem.u32_set32_same, Nat.mod_eq_of_lt]
        · simp (disch := omega) only [Mem.u32_set32_ne, Mem.u32_set32_same, Nat.mod_eq_of_lt]
        · simp (disch := omega) only [Mem.u32_set32_same, Nat.mod_eq_of_lt]
      · exact (putComponents_frame sign es (fun j hj => by omega) (fun j hj => by omega)).symm
      · exact (putComponents_frame sign es (fun j hj => by omega) (fun j hj => by omega)).symm
    | succ j =>
      rw [place_succ, List.getElem_cons_succ, show i + (j + 1) = i + 1 + j by omega]
      exact ih (i + 1) _ _ (by omega) (fun e' he' => hsmall e' (.tail _ he'))
        (by omega) j (by simpa using hj)

theorem dvd_alignSize (e : BlEntry) : 2048 ∣ e.alignSize := by
  unfold BlEntry.alignSize doAlign
  split <;> omega

theorem dvd_place (hoff : 2048 ∣ off) (es : List BlEntry) (j : Nat) :
    2048 ∣ place off es j := by
  refine Nat.dvd_add hoff (List.dvd_sum (fun n hn => ?_))
  obtain ⟨e, -, rfl⟩ := List.mem_map.1 hn
  exact dvd_alignSize e

/-- No component goes beyond the end. -/
theorem place_add_le (off : Nat) (es : List BlEntry) {j : Nat} (hj : j < es.length) :
    place off es j + es[j].alignSize ≤ off + (es.map BlEntry.alignSize).sum := by
  induction es generalizing off j with
  | nil => cases hj
  | cons e es ih =>
    rw [List.map_cons, List.sum_cons]
    cases j with
    | zero =>
      rw [place_zero, List.getElem_cons_zero]
      omega
    | succ j =>
      have hrest := ih (off + e.alignSize) (by simpa using hj)
      rw [place_succ, List.getElem_cons_succ]
      omega

end Loops

/-! ## The whole image -/

section Image

variable {sha256 : Nat → List UInt8 → Mem} {heap : Mem} {opts : Options} {out : Mem}

/-- What is left of `mergetrust` when it succeeds. -/
theorem mergetrust_eq (h : mergetrust sha256 heap opts = some out) :
    ∃ outBuf, Small ((allComponents opts).map Component.entry) ∧ (allComponents opts).length ≤ 32 ∧
      outFileSize ((allComponents opts).map Component.entry) ≤ trustimageMaxSize ∧
      saveComponents (sha256 opts.shaMode) ((allComponents opts).map Component.entry) 0 2048
        (Mem.zero.copy 0 (putComponents (800 + (allComponents opts).length * 48)
          ((allComponents opts).map Component.entry) 0 2048
          (trustHeader opts (allComponents opts).length)) 0 2048) = some outBuf ∧
      out = outBuf.copy trustimageMaxSize outBuf 0 trustimageMaxSize := by
  unfold mergetrust at h
  split at h
  · cases h
  next entries hcollect =>
    obtain ⟨rfl, hsmall⟩ := collect_eq _ hcollect
    rw [← allComponents] at h hsmall
    simp only [List.length_map] at h
    split at h
    · cases h
    next hnum =>
      split at h
      · cases h
      next hsize =>
        obtain ⟨outBuf, hsave, rfl⟩ := Option.map_eq_some_iff.1 h
        exact ⟨outBuf, hsmall, Nat.le_of_not_lt hnum, Nat.le_of_not_lt hsize, hsave, rfl⟩

/-- The first copy is `outBuf`. -/
theorem copy_low (hx : x < trustimageMaxSize) :
    outBuf.copy trustimageMaxSize outBuf 0 trustimageMaxSize x = outBuf x :=
  Mem.copy_apply_out (.inl hx)

/-- The field `size` of the header. -/
theorem mergetrust_header (h : mergetrust sha256 heap opts = some out) :
    componentNum out = (allComponents opts).length ∧
      signOffset out = 800 + 48 * (allComponents opts).length := by
  obtain ⟨outBuf, -, hnum, -, hsave, rfl⟩ := mergetrust_eq h
  generalize (allComponents opts).map Component.entry = es at hsave
  generalize (allComponents opts).length = n at hnum hsave ⊢
  have hmax : trustimageMaxSize = 2097152 := rfl
  have hfield : (outBuf.copy trustimageMaxSize outBuf 0 trustimageMaxSize).u32 12
      = (trustHeader opts n).u32 12 := by
    refine Mem.AgreeOn.u32 (fun x hlo hhi => ?_)
    rw [copy_low (by omega), saveComponents_frame _ hsave (by omega) (fun j _ => by omega),
      Mem.copy_apply_in (by omega) (by omega),
      putComponents_frame _ _ (fun j _ => by omega) (fun j _ => by omega), Nat.sub_zero, Nat.zero_add]
  have hor : ∀ n < 33, n * 65536 ||| (800 + n * 48) / 4 = n * 65536 + (200 + 12 * n) := by decide
  have hvalue : (trustHeader opts n).u32 12 = n * 65536 + (200 + 12 * n) := by
    rw [trustHeader, Mem.u32_set32_same, hor n (by omega)]
    omega
  rw [componentNum, signOffset, hfield, hvalue]
  omega

/-- With room for the metadata, every component is saved and entered. -/
theorem mergetrust_component (h : mergetrust sha256 heap opts = some out)
    (hroom : (allComponents opts).length ≤ 15) (hi : i < (allComponents opts).length) :
    ∃ pos, 2048 ∣ pos ∧ Saved (sha256 opts.shaMode) out i pos (allComponents opts)[i].entry ∧
      Entered (800 + 48 * (allComponents opts).length) out i pos (allComponents opts)[i].entry := by
  obtain ⟨outBuf, hsmall, -, hsize, hsave, rfl⟩ := mergetrust_eq h
  have hmax : trustimageMaxSize = 2097152 := rfl
  have hlen : ((allComponents opts).map Component.entry).length = (allComponents opts).length :=
    List.length_map _
  unfold outFileSize at hsize
  have hfits := place_add_le 2048 _ (show i < ((allComponents opts).map Component.entry).length by omega)
  have hsaved := saveComponents_saved _ hsave (by omega) le_rfl i (by omega)
  have hentered := putComponents_entered (800 + (allComponents opts).length * 48) _ 0 2048
    (trustHeader opts (allComponents opts).length) (by omega) hsmall (by omega) i (by omega)
  rw [Nat.zero_add] at hsaved hentered
  rw [List.getElem_map] at hsaved hentered hfits
  refine ⟨place 2048 ((allComponents opts).map Component.entry) i, dvd_place (by decide) _ i, ?_, ?_⟩
  · refine hsaved.congr (fun x _ hx => ?_) (fun x _ hx => ?_)
    · exact (copy_low (by omega)).symm
    · exact (copy_low (by omega)).symm
  rw [Nat.mul_comm 48 (allComponents opts).length]
  have hheader : ∀ x < 2048,
      (∀ j < ((allComponents opts).map Component.entry).length,
        x < 800 + 48 * (0 + j) ∨ 800 + 48 * (0 + j) + 32 ≤ x) →
      putComponents (800 + (allComponents opts).length * 48)
        ((allComponents opts).map Component.entry) 0 2048
        (trustHeader opts (allComponents opts).length) x
        = outBuf.copy trustimageMaxSize outBuf 0 trustimageMaxSize x := by
    intro x hx hout
    rw [copy_low (by omega), saveComponents_frame _ hsave hx hout,
      Mem.copy_apply_in (by omega) (by omega), Nat.sub_zero, Nat.zero_add]
  refine hentered.congr (fun x hlo hhi => ?_) (fun x hlo hhi => ?_)
  · exact hheader x (by omega) (fun j _ => by omega)
  · exact hheader x (by omega) (fun j _ => by omega)

end Image

/-! ## When the image is right -/

section Main

variable {sha : List UInt8 → Mem} {out : Mem} {i pos : Nat} {c : Component}

/-- Nothing of a component is lost by the cut to 32 bits: it is small enough for the tool, and its
    address and its offset fit, or what is at the offset that results is the same. -/
def Component.Representable (c : Component) : Prop :=
  c.addr < 2 ^ 32 ∧ c.size ≤ bl3xFilesizeMax ∧
    (c.offset < 2 ^ 32 ∨ c.offset + c.size ≤ c.file.length ∧
      (Mem.ofList c.file).bytes c.offset c.size = (Mem.ofList c.file).bytes (c.offset % 2 ^ 32) c.size)

theorem toNat_entry (c : Component) : c.entry.addr.toNat = c.addr % 2 ^ 32 ∧
    c.entry.offset.toNat = c.offset % 2 ^ 32 ∧ c.entry.size.toNat = c.size % 2 ^ 32 :=
  ⟨UInt32.toNat_ofNat', UInt32.toNat_ofNat', UInt32.toNat_ofNat'⟩

theorem Component.length_image (c : Component) : c.image.length = Mem.alignUp 2048 c.size := by
  rw [Component.image, Mem.length_padTo (by decide), Mem.length_bytes]

/-- The tool takes the right bytes exactly when the component is representable. -/
theorem Component.Representable.image_eq (h : c.Representable) : c.entry.image = c.image := by
  obtain ⟨-, hsize, hoffset⟩ := h
  simp only [bl3xFilesizeMax] at hsize
  obtain ⟨-, hentry, hentrySize⟩ := toNat_entry c
  have hbytes : (Mem.ofList c.file).bytes (c.offset % 2 ^ 32) c.size
      = (Mem.ofList c.file).bytes c.offset c.size := by
    rcases hoffset with hlt | ⟨-, heq⟩
    · rw [Nat.mod_eq_of_lt hlt]
    · exact heq.symm
  rw [BlEntry.image, Component.image, hentry, hentrySize,
    Nat.mod_eq_of_lt (show c.size < 2 ^ 32 by omega)]
  exact congrArg _ hbytes

theorem bytes_of_image_eq (hsize : c.size < 2 ^ 32) (h : c.entry.image = c.image) :
    (Mem.ofList c.file).bytes c.offset c.size
      = (Mem.ofList c.file).bytes (c.offset % 2 ^ 32) c.size := by
  obtain ⟨-, hentry, hentrySize⟩ := toNat_entry c
  rw [BlEntry.image, Component.image, hentry, hentrySize, Nat.mod_eq_of_lt hsize, Mem.padTo,
    Mem.padTo] at h
  exact (List.append_inj_left h (by rw [Mem.length_bytes, Mem.length_bytes])).symm

theorem alignUp_le {n : Nat} (h : n ≤ bl3xFilesizeMax) : Mem.alignUp 2048 n ≤ bl3xFilesizeMax := by
  simp only [bl3xFilesizeMax] at h ⊢
  unfold Mem.alignUp
  omega

/-- What the header says of a component that was saved and entered. -/
theorem describes_iff (hpos : 2048 ∣ pos) (hsaved : Saved sha out i pos c.entry)
    (hentered : Entered (signOffset out) out i pos c.entry) :
    Describes sha out i c ↔ c.Representable := by
  obtain ⟨haddr, hoffset, hsize⟩ := toNat_entry c
  have hsmall := hsaved.size
  have halign := alignSize_eq hsmall
  have hpos' : 512 * (pos / 512) = pos := by omega
  have hdvd := dvd_alignSize c.entry
  have hlen := length_image c.entry
  have hlen' := c.length_image
  constructor
  · intro h
    have hsizes : c.entry.alignSize = Mem.alignUp 2048 c.size := by
      rw [← hlen', ← h.imageSize, hentered.imageSize]
      omega
    have hbound : c.size ≤ bl3xFilesizeMax := calc
      c.size ≤ Mem.alignUp 2048 c.size := Mem.le_alignUp (by decide) c.size
      _ = Mem.alignUp 2048 c.entry.size.toNat := by rw [← hsizes, halign]
      _ ≤ bl3xFilesizeMax := alignUp_le hsaved.size
    have himage : c.entry.image = c.image := by
      have hhas := h.storageAddr
      have hhas' := hsaved.image
      rw [hentered.storageAddr, hpos'] at hhas
      rw [← hhas, ← hhas', hlen, hlen', ← halign, hsizes]
    refine ⟨?_, hbound, .inr ⟨h.inFile, ?_⟩⟩
    · rw [← h.loadAddr, hentered.addr, haddr]
      exact Nat.mod_lt _ (by decide)
    · simp only [bl3xFilesizeMax] at hbound
      exact bytes_of_image_eq (by omega) himage
  · intro h
    have himage := h.image_eq
    obtain ⟨haddr', hsize', hoffset'⟩ := h
    simp only [bl3xFilesizeMax] at hsize'
    have hinFile := hsaved.inFile
    rw [hoffset, hsize, Nat.mod_eq_of_lt (show c.size < 2 ^ 32 by omega)] at hinFile
    refine ⟨?_, ?_, ?_, ?_, ?_, ?_⟩
    · rcases hoffset' with hlt | ⟨hin, -⟩
      · rw [Nat.mod_eq_of_lt hlt] at hinFile
        exact hinFile
      · exact hin
    · exact hentered.id
    · rw [hentered.addr, haddr, Nat.mod_eq_of_lt haddr']
    · rw [hentered.imageSize, ← himage, hlen, ← halign]
      omega
    · rw [hentered.storageAddr, hpos', ← himage]
      exact hsaved.image
    · rw [← himage]
      exact hsaved.hash

variable {sha256 : Nat → List UInt8 → Mem} {heap : Mem} {opts : Options}

/-- **When the image is right.** If the tool succeeds, the header describes all components of the
    input, inside of its 2048 bytes, exactly when there are at most 15 of them and each one is
    representable. The second copy is always the same as the first. -/
theorem mergetrust_correct_iff (h : mergetrust sha256 heap opts = some out) :
    Correct (sha256 opts.shaMode) (allComponents opts) out ↔
      (allComponents opts).length ≤ 15 ∧ ∀ c ∈ allComponents opts, c.Representable := by
  obtain ⟨hnum, hsign⟩ := mergetrust_header h
  have hcopies : ∀ x < trustimageMaxSize, out (trustimageMaxSize + x) = out x := by
    obtain ⟨outBuf, -, -, -, -, rfl⟩ := mergetrust_eq h
    intro x hx
    rw [copy_low hx, Mem.copy_apply_in (by omega) (by omega), Nat.add_sub_cancel_left,
      Nat.zero_add]
  have hdescribes : (allComponents opts).length ≤ 15 → ∀ i (hi : i < (allComponents opts).length),
      Describes (sha256 opts.shaMode) out i (allComponents opts)[i] ↔
        (allComponents opts)[i].Representable := by
    intro hroom i hi
    obtain ⟨pos, hpos, hsaved, hentered⟩ := mergetrust_component h hroom hi
    rw [← hsign] at hentered
    exact describes_iff hpos hsaved hentered
  constructor
  · intro hcorrect
    have hinside := hcorrect.inside
    have hroom : (allComponents opts).length ≤ 15 := by omega
    refine ⟨hroom, fun c hc => ?_⟩
    obtain ⟨i, hi, rfl⟩ := List.getElem_of_mem hc
    exact (hdescribes hroom i hi).1 (hcorrect.described i hi)
  · rintro ⟨hroom, hall⟩
    exact ⟨hnum, by omega, fun i hi => (hdescribes hroom i hi).2 (hall _ (List.getElem_mem hi)),
      hcopies⟩

/-- Options with the same file for BL30 to BL33. -/
def fourFiles (file : List UInt8) : Options where
  major := 1
  minor := 0
  bl3x _ := ⟨true, 0x10000, some file⟩
  shaMode := 3
  rsaMode := 2

theorem mergetrust_correct_iff_raw :
    ∃ out, mergetrust (fun _ _ => Mem.zero) Mem.zero (fourFiles [1, 2, 3]) = some out ∧
      (Correct (fun _ => Mem.zero) (allComponents (fourFiles [1, 2, 3])) out ↔
        (allComponents (fourFiles [1, 2, 3])).length ≤ 15 ∧
          ∀ c ∈ allComponents (fourFiles [1, 2, 3]), c.Representable) := by
  obtain ⟨out, hout⟩ := Option.isSome_iff_exists.1 (show (mergetrust (fun _ _ => Mem.zero) Mem.zero
    (fourFiles [1, 2, 3])).isSome = true by decide +kernel)
  exact ⟨out, hout, mergetrust_correct_iff hout⟩

/-- Options with one file, for BL31. -/
def oneFile (file : List UInt8) : Options where
  major := 1
  minor := 0
  bl3x
    | .bl31 => ⟨true, 0x10000, some file⟩
    | _ => ⟨false, 0, none⟩
  shaMode := 3
  rsaMode := 2

def le64 (v : Nat) : List UInt8 := Mem.le32 v ++ Mem.le32 (v / 2 ^ 32)

/-- An ELF64 file with `n` program headers for one byte at address `vaddr`. -/
def elfFile (n vaddr : Nat) : List UInt8 :=
  [0x7f, 0x45, 0x4c, 0x46, 2, 1, 1, 0, 0, 0, 0, 0, 0, 0, 0, 0] ++ Mem.le16 2 ++ Mem.le16 0xb7 ++
    Mem.le32 1 ++ le64 vaddr ++ le64 64 ++ le64 0 ++ Mem.le32 0 ++ Mem.le16 64 ++ Mem.le16 56 ++
    Mem.le16 n ++ Mem.le16 0 ++ Mem.le16 0 ++ Mem.le16 0 ++
    (List.replicate n (Mem.le32 1 ++ Mem.le32 5 ++ le64 0 ++ le64 vaddr ++ le64 vaddr ++ le64 1 ++
      le64 1 ++ le64 4096)).flatten

/-- Four segments in each file are accepted, but their table ends behind the header; and a segment
    above 4 GiB is accepted, but its address in the header is another one. -/
theorem mergetrust_not_correct :
    (∃ out, mergetrust (fun _ _ => Mem.zero) Mem.zero (fourFiles (elfFile 4 0x10000)) = some out ∧
      (allComponents (fourFiles (elfFile 4 0x10000))).length = 16 ∧
      ¬ Correct (fun _ => Mem.zero) (allComponents (fourFiles (elfFile 4 0x10000))) out) ∧
    ∃ out, mergetrust (fun _ _ => Mem.zero) Mem.zero (oneFile (elfFile 1 0x100010000)) = some out ∧
      (allComponents (oneFile (elfFile 1 0x100010000))).map Component.addr = [0x100010000] ∧
      ¬ Correct (fun _ => Mem.zero) (allComponents (oneFile (elfFile 1 0x100010000))) out := by
  refine ⟨?_, ?_⟩
  · obtain ⟨out, hout⟩ := Option.isSome_iff_exists.1 (show (mergetrust (fun _ _ => Mem.zero) Mem.zero
      (fourFiles (elfFile 4 0x10000))).isSome = true by decide +kernel)
    have hlen : (allComponents (fourFiles (elfFile 4 0x10000))).length = 16 := by decide +kernel
    refine ⟨out, hout, hlen, fun hcorrect => ?_⟩
    have hinside := hcorrect.inside
    rw [(mergetrust_header hout).2, hlen] at hinside
    omega
  · obtain ⟨out, hout⟩ := Option.isSome_iff_exists.1 (show (mergetrust (fun _ _ => Mem.zero) Mem.zero
      (oneFile (elfFile 1 0x100010000))).isSome = true by decide +kernel)
    have haddr : (allComponents (oneFile (elfFile 1 0x100010000))).map Component.addr
        = [0x100010000] := by decide +kernel
    refine ⟨out, hout, haddr, fun hcorrect => ?_⟩
    have hlen := congrArg List.length haddr
    rw [List.length_map, List.length_singleton] at hlen
    have hfirst : 0 < (allComponents (oneFile (elfFile 1 0x100010000))).length := by omega
    have hload := (hcorrect.described 0 hfirst).loadAddr
    have hget : (allComponents (oneFile (elfFile 1 0x100010000)))[0].addr = 0x100010000 := by
      have := congrArg (fun l => l[0]?) haddr
      simpa [hfirst] using this
    have hlt := Mem.u32_lt out (800 + 48 * 0 + 32)
    omega

end Main

end TrustMerger
