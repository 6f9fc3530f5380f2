import RkUboot.Resource.RoundTrip

set_option autoImplicit false

/-! # Which files are packed

`pack_image` goes through its files once. A device tree is exchanged with the first file that is not
one, and the image itself with the last file, which is then cut off. The file that comes from the end
this way is never looked at: it stays where it is, whether it is a device tree or the image once more.

Seen from the list, the loop keeps the device trees it has found, a queue of other files behind them,
and what is left. Each device tree takes the place of the first file in the queue, which goes to the
end. -/

namespace Resource

/-! ## Exchanges in an array -/

section Swap

variable {α : Type} (xs : Array α)

theorem toList_swapIfInBounds {i j : Nat} {x y : α} (hx : xs.toList[i]? = some x)
    (hy : xs.toList[j]? = some y) :
    (xs.swapIfInBounds i j).toList = (xs.toList.set i y).set j x := by
  obtain ⟨hi, rfl⟩ := List.getElem?_eq_some_iff.1 hx
  obtain ⟨hj, rfl⟩ := List.getElem?_eq_some_iff.1 hy
  rw [Array.length_toList] at hi hj
  rw [Array.swapIfInBounds, dif_pos hi, dif_pos hj, Array.swap_def, Array.toList_set,
    Array.toList_set]
  rfl

theorem toList_swap_same (i : Nat) : (xs.swapIfInBounds i i).toList = xs.toList := by
  cases h : xs.toList[i]? with
  | none =>
    rw [List.getElem?_eq_none_iff, Array.length_toList] at h
    rw [Array.swapIfInBounds, dif_neg (by omega)]
  | some x =>
    obtain ⟨hi, hx⟩ := List.getElem?_eq_some_iff.1 h
    rw [toList_swapIfInBounds xs h h, List.set_set, ← hx, List.set_getElem_self]

/-- Two elements change places. -/
theorem toList_swap {as bs cs : List α} {x y : α} (h : xs.toList = as ++ x :: (bs ++ y :: cs)) :
    (xs.swapIfInBounds as.length (as.length + (bs.length + 1))).toList = as ++ y :: (bs ++ x :: cs) ∧
      (xs.swapIfInBounds (as.length + (bs.length + 1)) as.length).toList
        = as ++ y :: (bs ++ x :: cs) := by
  have hx : xs.toList[as.length]? = some x := by simp [h]
  have hy : xs.toList[as.length + (bs.length + 1)]? = some y := by simp [h]
  have hset : (xs.toList.set as.length y).set (as.length + (bs.length + 1)) x
      = as ++ y :: (bs ++ x :: cs) := by simp [h]
  constructor
  · rw [toList_swapIfInBounds xs hx hy, hset]
  · rw [toList_swapIfInBounds xs hy hx, List.set_comm _ _ (by omega), hset]

end Swap

/-! ## The loop on lists -/

section Arrange

variable (imagePath : List UInt8)

/-- The file is the image itself. -/
def IsImage (f : SrcFile) : Prop := fixPath imagePath = fixPath f.name
  deriving Decidable

/-- The device trees, and the queue behind them, once the loop has gone through `rest`. -/
def arrange : Nat → List SrcFile → List SrcFile → List SrcFile → List SrcFile × List SrcFile
  | 0, dtbs, queue, _ => (dtbs, queue)
  | _ + 1, dtbs, queue, [] => (dtbs, queue)
  | k + 1, dtbs, queue, f :: rest =>
    if isDtb f.name then arrange k (dtbs ++ [f]) (queue.rotate 1) rest
    else if IsImage imagePath f then
      match rest.getLast? with
      | none => (dtbs, queue)
      | some last => arrange k dtbs (queue ++ [last]) rest.dropLast
    else arrange k dtbs (queue ++ [f]) rest

variable {imagePath}

/-- The array begins with the device trees and the queue; only images are behind that. -/
def Selects (imagePath : List UInt8) (r : Array SrcFile × Nat) (sel : List SrcFile × List SrcFile) :
    Prop :=
  ∃ cut, r.1.toList = sel.1 ++ sel.2 ++ cut ∧ r.2 = (sel.1 ++ sel.2).length ∧
    ∀ f ∈ cut, IsImage imagePath f

section Exchange

variable {files : Array SrcFile} {dtbs queue rest cut : List SrcFile} {f last : SrcFile}

/-- A device tree takes the place of the first file in the queue. -/
theorem toList_swap_dtb (h : files.toList = dtbs ++ queue ++ f :: rest ++ cut) :
    (files.swapIfInBounds dtbs.length (dtbs.length + queue.length)).toList
      = dtbs ++ [f] ++ queue.rotate 1 ++ rest ++ cut := by
  cases queue with
  | nil =>
    rw [List.length_nil, Nat.add_zero, toList_swap_same, h]
    simp
  | cons q queue =>
    have hsplit : files.toList = dtbs ++ q :: (queue ++ f :: (rest ++ cut)) := by
      rw [h]
      simp
    rw [List.length_cons, (toList_swap files hsplit).1]
    simp

/-- The last file takes the place of the image. -/
theorem toList_swap_image (h : files.toList = dtbs ++ queue ++ f :: (rest ++ [last]) ++ cut) :
    (files.swapIfInBounds (dtbs.length + queue.length + (rest.length + 1))
        (dtbs.length + queue.length)).toList
      = dtbs ++ (queue ++ [last]) ++ rest ++ f :: cut := by
  have hsplit : files.toList = dtbs ++ queue ++ f :: (rest ++ last :: cut) := by
    rw [h]
    simp
  rw [← List.length_append, (toList_swap files hsplit).2]
  simp

end Exchange

/-- Behind the last file the loop does nothing. -/
theorem prepareLoop_end (k : Nat) (files : Array SrcFile) (pos : Nat) {i num : Nat} (h : num ≤ i) :
    prepareLoop imagePath k files i pos num = (files, num) := by
  cases k with
  | zero => rfl
  | succ k =>
    rw [prepareLoop]
    split
    · rfl
    · rw [if_pos h]

/-- The loop of `pack_image` on the list. -/
theorem prepareLoop_selects (k : Nat) {files : Array SrcFile} {dtbs queue rest cut : List SrcFile}
    (hfiles : files.toList = dtbs ++ queue ++ rest ++ cut) (hk : rest.length ≤ k)
    (hcut : ∀ f ∈ cut, IsImage imagePath f) :
    Selects imagePath
      (prepareLoop imagePath k files (dtbs.length + queue.length) dtbs.length
        (dtbs.length + queue.length + rest.length))
      (arrange imagePath k dtbs queue rest) := by
  induction k generalizing files dtbs queue rest cut with
  | zero =>
    obtain rfl := List.eq_nil_of_length_eq_zero (Nat.le_zero.1 hk)
    rw [List.append_nil] at hfiles
    exact ⟨cut, hfiles, List.length_append.symm, hcut⟩
  | succ k ih =>
    cases rest with
    | nil =>
      rw [List.append_nil] at hfiles
      have hnum : dtbs.length + queue.length + ([] : List SrcFile).length
          = dtbs.length + queue.length := rfl
      rw [hnum, prepareLoop_end _ _ _ le_rfl, arrange]
      exact ⟨cut, hfiles, List.length_append.symm, hcut⟩
    | cons f rest =>
      have hget : files[dtbs.length + queue.length]? = some f := by
        rw [← Array.getElem?_toList, hfiles, ← List.length_append, List.append_assoc]
        simp
      rw [List.length_cons] at hk ⊢
      simp only [prepareLoop, hget, arrange]
      rw [if_neg (by omega)]
      by_cases hdtb : isDtb f.name
      · rw [if_pos hdtb, if_pos hdtb]
        have hrest := ih (toList_swap_dtb hfiles) (Nat.le_of_succ_le_succ hk) hcut
        rw [List.length_append, List.length_singleton, List.length_rotate] at hrest
        rwa [show dtbs.length + queue.length + 1 = dtbs.length + 1 + queue.length by omega,
          show dtbs.length + queue.length + (rest.length + 1)
            = dtbs.length + 1 + queue.length + rest.length by omega]
      rw [if_neg hdtb, if_neg hdtb]
      by_cases himage : IsImage imagePath f
      · rw [if_pos himage, if_pos (show fixPath imagePath = fixPath f.name from himage)]
        have hcut' : ∀ g ∈ f :: cut, IsImage imagePath g := by
          intro g hg
          rcases List.mem_cons.1 hg with rfl | hg
          · exact himage
          · exact hcut g hg
        rcases List.eq_nil_or_concat rest with rfl | ⟨rest, last, rfl⟩
        · -- the image is the last file
          rw [prepareLoop_end _ _ _ (by simp)]
          refine ⟨f :: cut, ?_, by simp, hcut'⟩
          have hsame : dtbs.length + queue.length + (([] : List SrcFile).length + 1) - 1
              = dtbs.length + queue.length := by simp
          rw [hsame, toList_swap_same, hfiles]
          simp
        · rw [List.concat_eq_append] at hfiles hk ⊢
          rw [List.length_append, List.length_singleton] at hk ⊢
          rw [List.getLast?_concat, List.dropLast_concat]
          have hrest := ih (toList_swap_image hfiles) (by omega) hcut'
          rw [List.length_append, List.length_singleton,
            show dtbs.length + (queue.length + 1) + rest.length
              = dtbs.length + queue.length + (rest.length + 1) by omega] at hrest
          exact hrest
      · rw [if_neg himage, if_neg (show ¬ fixPath imagePath = fixPath f.name from himage)]
        have hrest := @ih files dtbs (queue ++ [f]) rest cut (by rw [hfiles]; simp)
          (Nat.le_of_succ_le_succ hk) hcut
        rw [List.length_append, List.length_singleton, ← Nat.add_assoc] at hrest
        rwa [show dtbs.length + queue.length + (rest.length + 1)
            = dtbs.length + queue.length + 1 + rest.length by omega]

/-- The packed files are the device trees and the queue, and the other files are images. -/
theorem prepare_eq (imagePath : List UInt8) (files : Array SrcFile) :
    let sel := arrange imagePath files.toList.length [] [] files.toList
    prepare imagePath files = sel.1 ++ sel.2 ∧
      ∃ cut, files.toList.Perm (sel.1 ++ sel.2 ++ cut) ∧ ∀ f ∈ cut, IsImage imagePath f := by
  obtain ⟨cut, hlist, hnum, hcut⟩ := @prepareLoop_selects imagePath files.toList.length files [] []
    files.toList [] (by simp) le_rfl (fun f hf => absurd hf List.not_mem_nil)
  have hperm := prepareLoop_toList_perm imagePath files files.toList.length 0 0 files.toList.length
  simp only [List.length_nil, Nat.add_zero, Nat.zero_add] at hlist hnum
  refine ⟨?_, cut, hlist ▸ hperm.symm, hcut⟩
  rw [prepare, ← Array.length_toList, hnum, hlist, List.take_left]

end Arrange

/-! ## Images that are left -/

/-- How often the image is among the files. -/
def images (imagePath : List UInt8) (files : List SrcFile) : Nat :=
  files.countP (fun f => IsImage imagePath f)

/-- The last `n` files. -/
def lastFiles (n : Nat) (files : List SrcFile) : List SrcFile := files.drop (files.length - n)

/-- No image is a device tree, and none is among the last files, one less than there are images. -/
structure Separable (imagePath : List UInt8) (files : List SrcFile) : Prop where
  notDtb : ∀ f ∈ files, IsImage imagePath f → isDtb f.name = false
  early : ∀ f ∈ lastFiles (images imagePath files - 1) files, ¬ IsImage imagePath f

section Separable

variable {imagePath : List UInt8} {rest : List SrcFile} {f last : SrcFile}

theorem images_le (imagePath : List UInt8) (files : List SrcFile) :
    images imagePath files ≤ files.length := List.countP_le_length

theorem images_cons_of_not (h : ¬ IsImage imagePath f) :
    images imagePath (f :: rest) = images imagePath rest :=
  List.countP_cons_of_neg (by simpa using h)

theorem images_cons_concat (h : IsImage imagePath f) :
    images imagePath (f :: (rest ++ [last]))
      = images imagePath rest + (if IsImage imagePath last then 1 else 0) + 1 := by
  unfold images
  rw [List.countP_cons_of_pos (by simpa using h), List.countP_append, List.countP_singleton]
  simp only [decide_eq_true_eq]

theorem lastFiles_cons {n : Nat} (h : n ≤ rest.length) :
    lastFiles n (f :: rest) = lastFiles n rest := by
  unfold lastFiles
  rw [List.length_cons, Nat.sub_add_comm h, List.drop_succ_cons]

theorem lastFiles_concat (n : Nat) :
    lastFiles (n + 1) (rest ++ [last]) = lastFiles n rest ++ [last] := by
  unfold lastFiles
  rw [List.length_append, List.length_singleton, Nat.add_sub_add_right,
    List.drop_append_of_le_length (Nat.sub_le _ _)]

/-- The file at the end, between an image and the end of the other files. -/
theorem lastFiles_cons_concat {n : Nat} (h : n ≤ rest.length) :
    lastFiles (n + 1) (f :: (rest ++ [last])) = lastFiles n rest ++ [last] := by
  rw [lastFiles_cons (by simpa using h), lastFiles_concat]

/-- Files before the first image do not matter. -/
theorem separable_cons (h : ¬ IsImage imagePath f) :
    Separable imagePath (f :: rest) ↔ Separable imagePath rest := by
  have hlast : lastFiles (images imagePath (f :: rest) - 1) (f :: rest)
      = lastFiles (images imagePath rest - 1) rest := by
    rw [images_cons_of_not h, lastFiles_cons ((Nat.sub_le _ 1).trans (images_le _ _))]
  constructor
  · rintro ⟨hdtb, hearly⟩
    exact ⟨fun g hg => hdtb g (List.mem_cons_of_mem f hg), hlast ▸ hearly⟩
  rintro ⟨hdtb, hearly⟩
  refine ⟨fun g hg himage => ?_, hlast.symm ▸ hearly⟩
  rcases List.mem_cons.1 hg with rfl | hg
  · exact absurd himage h
  · exact hdtb g hg himage

/-- An image that is the last file. -/
theorem separable_singleton (himage : IsImage imagePath f) (hdtb : isDtb f.name = false) :
    Separable imagePath [f] := by
  refine ⟨fun g hg _ => ?_, fun g hg => ?_⟩
  · rw [List.mem_singleton.1 hg]
    exact hdtb
  · rw [images, List.countP_cons_of_pos (by simpa using himage)] at hg
    exact absurd hg (by simp [lastFiles])

/-- An image that is exchanged with the last file. -/
theorem separable_cons_concat (himage : IsImage imagePath f) (hdtb : isDtb f.name = false) :
    Separable imagePath (f :: (rest ++ [last])) ↔
      ¬ IsImage imagePath last ∧ Separable imagePath rest := by
  have hle := images_le imagePath rest
  by_cases hlast : IsImage imagePath last
  · refine iff_of_false (fun h => h.early last ?_ hlast) (fun h => h.1 hlast)
    rw [images_cons_concat himage, if_pos hlast, Nat.add_sub_cancel, lastFiles_cons_concat hle]
    exact List.mem_append_right _ (.head _)
  rw [and_iff_right hlast]
  -- an image is at the end exactly if it is at the end of the rest
  have hmem : ∀ g, IsImage imagePath g →
      (g ∈ lastFiles (images imagePath (f :: (rest ++ [last])) - 1) (f :: (rest ++ [last])) ↔
        g ∈ lastFiles (images imagePath rest - 1) rest) := by
    intro g hg
    have hne : g ≠ last := fun heq => hlast (heq ▸ hg)
    rw [images_cons_concat himage, if_neg hlast, Nat.add_zero, Nat.add_sub_cancel]
    cases hm : images imagePath rest with
    | zero => simp [lastFiles]
    | succ m =>
      rw [lastFiles_cons_concat (by omega), Nat.add_sub_cancel]
      simp [hne]
  constructor
  · intro h
    exact ⟨fun g hg => h.notDtb g (by simp [hg]), fun g hg hgi => h.early g ((hmem g hgi).2 hg) hgi⟩
  intro h
  refine ⟨fun g hg hgi => ?_, fun g hg hgi => h.early g ((hmem g hgi).1 hg) hgi⟩
  simp only [List.mem_cons, List.mem_append, List.not_mem_nil, or_false] at hg
  rcases hg with rfl | hg | rfl
  · exact hdtb
  · exact h.notDtb g hg hgi
  · exact absurd hgi hlast

/-- The image is among the packed files unless all of them are found. -/
theorem arrange_no_image_iff (k : Nat) {dtbs queue rest : List SrcFile} (hk : rest.length ≤ k) :
    (∀ f ∈ (arrange imagePath k dtbs queue rest).1 ++ (arrange imagePath k dtbs queue rest).2,
        ¬ IsImage imagePath f) ↔
      (∀ f ∈ dtbs ++ queue, ¬ IsImage imagePath f) ∧ Separable imagePath rest := by
  have hnil : Separable imagePath [] :=
    ⟨fun f hf => absurd hf List.not_mem_nil, fun f hf => by simp [lastFiles] at hf⟩
  induction k generalizing dtbs queue rest with
  | zero =>
    obtain rfl := List.eq_nil_of_length_eq_zero (Nat.le_zero.1 hk)
    exact (and_iff_left hnil).symm
  | succ k ih =>
    cases rest with
    | nil =>
      exact (and_iff_left hnil).symm
    | cons f rest =>
      rw [List.length_cons] at hk
      rw [arrange]
      by_cases hdtb : isDtb f.name
      · rw [if_pos hdtb]
        refine (@ih (dtbs ++ [f]) (queue.rotate 1) rest (by omega)).trans ?_
        simp only [List.forall_mem_append, List.forall_mem_singleton, List.mem_rotate]
        by_cases himage : IsImage imagePath f
        · refine iff_of_false (fun h => h.1.1.2 himage) (fun h => ?_)
          exact absurd (h.2.notDtb f (.head _) himage) (by simp [hdtb])
        · rw [separable_cons himage, and_iff_left himage]
      rw [if_neg hdtb]
      by_cases himage : IsImage imagePath f
      · rw [if_pos himage]
        have hdtb' : isDtb f.name = false := by simpa using hdtb
        rcases List.eq_nil_or_concat rest with rfl | ⟨rest, last, rfl⟩
        · exact (and_iff_left (separable_singleton himage hdtb')).symm
        rw [List.concat_eq_append] at hk ⊢
        rw [List.length_append, List.length_singleton] at hk
        rw [List.getLast?_concat, List.dropLast_concat, separable_cons_concat himage hdtb']
        refine (@ih dtbs (queue ++ [last]) rest (by omega)).trans ?_
        simp only [List.forall_mem_append, List.forall_mem_singleton, and_assoc]
      · rw [if_neg himage, separable_cons himage]
        refine (@ih dtbs (queue ++ [f]) rest (by omega)).trans ?_
        simp only [List.forall_mem_append, List.forall_mem_singleton]
        rw [and_iff_left himage]

end Separable

/-! ## The order -/

/-- Device trees come before all other files. -/
def DtbsFirst (files : List SrcFile) : Prop :=
  files.Pairwise (fun f g => isDtb g.name = true → isDtb f.name = true)
  deriving Decidable

section Order

variable {imagePath : List UInt8}

theorem arrange_dtbs (k : Nat) {dtbs : List SrcFile} (queue rest : List SrcFile)
    (h : ∀ f ∈ dtbs, isDtb f.name = true) :
    ∀ f ∈ (arrange imagePath k dtbs queue rest).1, isDtb f.name = true := by
  induction k generalizing dtbs queue rest with
  | zero => exact h
  | succ k ih =>
    cases rest with
    | nil => exact h
    | cons f rest =>
      rw [arrange]
      split
      · next hdtb =>
        refine ih _ _ (fun g hg => ?_)
        rcases List.mem_append.1 hg with hg | hg
        · exact h g hg
        · rw [List.mem_singleton.1 hg]
          exact hdtb
      · split
        · split
          · exact h
          · exact ih _ _ h
        · exact ih _ _ h

theorem dtbsFirst_of_all {files : List SrcFile} (h : ∀ f ∈ files, isDtb f.name = true) :
    DtbsFirst files :=
  List.Pairwise.imp_of_mem (fun hf _ _ _ => h _ hf) (List.pairwise_of_forall fun _ _ => trivial)

theorem dtbsFirst_of_none {files : List SrcFile} (h : ∀ f ∈ files, isDtb f.name = false) :
    DtbsFirst files := by
  refine List.Pairwise.imp_of_mem (fun _ hg _ hdtb => ?_) (List.pairwise_of_forall fun _ _ => trivial)
  cases (h _ hg).symm.trans hdtb

theorem dtbsFirst_append_iff {dtbs queue : List SrcFile} (h : ∀ f ∈ dtbs, isDtb f.name = true) :
    DtbsFirst (dtbs ++ queue) ↔ DtbsFirst queue := by
  unfold DtbsFirst
  rw [List.pairwise_append]
  exact ⟨fun hall => hall.2.1, fun hqueue => ⟨dtbsFirst_of_all h, hqueue, fun f hf _ _ _ => h f hf⟩⟩

/-- Unless a device tree comes from the end, there is none in the queue. -/
theorem arrange_queue (k : Nat) {dtbs queue rest : List SrcFile} (hk : rest.length ≤ k)
    (hsep : Separable imagePath rest) (hqueue : ∀ f ∈ queue, isDtb f.name = false)
    (hlast : ∀ f ∈ lastFiles (images imagePath rest) rest, isDtb f.name = false) :
    ∀ f ∈ (arrange imagePath k dtbs queue rest).2, isDtb f.name = false := by
  induction k generalizing dtbs queue rest with
  | zero => exact hqueue
  | succ k ih =>
    cases rest with
    | nil => exact hqueue
    | cons f rest =>
      rw [List.length_cons] at hk
      rw [arrange]
      by_cases himage : IsImage imagePath f
      · have hdtb := hsep.notDtb f (.head _) himage
        rw [if_neg (by simp [hdtb]), if_pos himage]
        rcases List.eq_nil_or_concat rest with rfl | ⟨rest, last, rfl⟩
        · exact hqueue
        rw [List.concat_eq_append] at hsep hlast hk ⊢
        obtain ⟨hne, hsep⟩ := (separable_cons_concat himage hdtb).1 hsep
        rw [images_cons_concat himage, if_neg hne, Nat.add_zero,
          lastFiles_cons_concat (images_le _ _), List.forall_mem_append] at hlast
        rw [List.length_append, List.length_singleton] at hk
        rw [List.getLast?_concat, List.dropLast_concat]
        exact ih (by omega) hsep (List.forall_mem_append.2 ⟨hqueue, hlast.2⟩) hlast.1
      rw [images_cons_of_not himage, lastFiles_cons (images_le _ _)] at hlast
      rw [separable_cons himage] at hsep
      by_cases hdtb : isDtb f.name
      · rw [if_pos hdtb]
        exact ih (by omega) hsep (fun g hg => hqueue g (List.mem_rotate.1 hg)) hlast
      · rw [if_neg hdtb, if_neg himage]
        refine ih (by omega) hsep (List.forall_mem_append.2 ⟨hqueue, ?_⟩) hlast
        simpa using hdtb

/-- Files before the first image: the device trees go in front, the others into the queue. -/
theorem arrange_append (k : Nat) (rest : List SrcFile) {files : List SrcFile}
    (h : ∀ f ∈ files, ¬ IsImage imagePath f) (dtbs queue : List SrcFile) :
    ∃ queue', queue'.Perm (queue ++ files.filter (fun f => ¬ isDtb f.name)) ∧
      arrange imagePath (files.length + k) dtbs queue (files ++ rest)
        = arrange imagePath k (dtbs ++ files.filter (fun f => isDtb f.name)) queue' rest := by
  induction files generalizing dtbs queue with
  | nil => exact ⟨queue, by simp, by simp⟩
  | cons f files ih =>
    rw [List.length_cons, Nat.add_right_comm, List.cons_append, arrange]
    have h' := fun g hg => h g (List.mem_cons_of_mem f hg)
    by_cases hdtb : isDtb f.name
    · obtain ⟨queue', hperm, hrest⟩ := ih h' (dtbs ++ [f]) (queue.rotate 1)
      refine ⟨queue', hperm.trans ?_, ?_⟩
      · simpa [hdtb] using (List.rotate_perm queue 1).append_right _
      · rw [if_pos hdtb, hrest]
        simp [hdtb]
    · obtain ⟨queue', hperm, hrest⟩ := ih h' dtbs (queue ++ [f])
      refine ⟨queue', hperm.trans ?_, ?_⟩
      · simp [hdtb]
      · rw [if_neg hdtb, if_neg (h f (.head _)), hrest]
        simp [hdtb]

/-- Files that are neither images nor device trees stay in their order. -/
theorem arrange_plain {files : List SrcFile} {k : Nat} (hk : files.length ≤ k)
    (himage : ∀ f ∈ files, ¬ IsImage imagePath f) (hdtb : ∀ f ∈ files, isDtb f.name = false)
    (dtbs queue : List SrcFile) : arrange imagePath k dtbs queue files = (dtbs, queue ++ files) := by
  induction files generalizing k queue with
  | nil => cases k <;> simp [arrange]
  | cons f files ih =>
    obtain ⟨k, rfl⟩ := Nat.exists_eq_add_of_lt (show 0 < k from Nat.zero_lt_of_lt hk)
    rw [List.forall_mem_cons] at himage hdtb
    rw [Nat.zero_add, arrange, if_neg (by simp [hdtb.1]), if_neg himage.1,
      ih (by simpa using hk) himage.2 hdtb.2, List.append_assoc, List.singleton_append]

/-- With the image once, and no device tree between it and the last file, the last file stands in the
    queue where the image was. -/
theorem arrange_once {before between : List SrcFile} {image last : SrcFile}
    (himage : IsImage imagePath image) (hplain : isDtb image.name = false)
    (hbefore : ∀ f ∈ before, ¬ IsImage imagePath f)
    (hbetween : ∀ f ∈ between, ¬ IsImage imagePath f) (hdtb : ∀ f ∈ between, isDtb f.name = false) :
    ∃ queue, queue.Perm (before.filter (fun f => ¬ isDtb f.name)) ∧
      arrange imagePath (before ++ image :: (between ++ [last])).length [] []
          (before ++ image :: (between ++ [last]))
        = (before.filter (fun f => isDtb f.name), queue ++ last :: between) := by
  obtain ⟨queue, hperm, hrun⟩ := arrange_append (between.length + 1 + 1)
    (image :: (between ++ [last])) hbefore [] []
  have hlen : (before ++ image :: (between ++ [last])).length
      = before.length + (between.length + 1 + 1) := by simp
  refine ⟨queue, hperm, ?_⟩
  rw [hlen, hrun, arrange, if_neg (by simp [hplain]), if_pos himage, List.getLast?_concat,
    List.dropLast_concat]
  simp only
  rw [arrange_plain (Nat.le_succ _) hbetween hdtb, List.append_assoc, List.singleton_append,
    List.nil_append]

/-- A device tree behind other files and before plain ones. -/
theorem dtbsFirst_insert_iff {queue between : List SrcFile} {last : SrcFile}
    (hqueue : ∀ f ∈ queue, isDtb f.name = false) (hlast : isDtb last.name = true)
    (hbetween : ∀ f ∈ between, isDtb f.name = false) :
    DtbsFirst (queue ++ last :: between) ↔ queue = [] := by
  constructor
  · intro h
    refine List.eq_nil_iff_forall_not_mem.2 (fun f hf => ?_)
    have := (List.pairwise_append.1 h).2.2 f hf last (.head _) hlast
    cases (hqueue f hf).symm.trans this
  · rintro rfl
    exact List.pairwise_cons.2 ⟨fun _ _ _ => hlast, dtbsFirst_of_none hbetween⟩

/-- The packed files are the ones that are not the image exactly if the images are separable. -/
theorem prepare_perm_iff (imagePath : List UInt8) (files : Array SrcFile) :
    (prepare imagePath files).Perm (files.toList.filter (fun f => ¬ IsImage imagePath f)) ↔
      Separable imagePath files.toList := by
  obtain ⟨hprepare, cut, hperm, hcut⟩ := prepare_eq imagePath files
  have himage := @arrange_no_image_iff imagePath files.toList.length [] [] files.toList
    le_rfl
  rw [hprepare]
  generalize (arrange imagePath files.toList.length [] [] files.toList).1 ++
    (arrange imagePath files.toList.length [] [] files.toList).2 = sel at hperm himage ⊢
  have hfilter : (files.toList.filter (fun f => ¬ IsImage imagePath f)).Perm
      (sel.filter (fun f => ¬ IsImage imagePath f)) := by
    have hnone : cut.filter (fun f => ¬ IsImage imagePath f) = [] := by
      rw [List.filter_eq_nil_iff]
      intro f hf
      simpa using hcut f hf
    have := hperm.filter (fun f => ¬ IsImage imagePath f)
    rwa [List.filter_append, hnone, List.append_nil] at this
  have hnil : (∀ f ∈ ([] : List SrcFile) ++ [], ¬ IsImage imagePath f) := by simp
  rw [and_iff_right hnil] at himage
  rw [← himage]
  constructor
  · intro h f hf himg
    have := (h.mem_iff.1 hf)
    rw [List.mem_filter] at this
    exact (of_decide_eq_true this.2) himg
  · intro h
    have hself : sel.filter (fun f => ¬ IsImage imagePath f) = sel := by
      rw [List.filter_eq_self]
      intro f hf
      simpa using h f hf
    rw [hself] at hfilter
    exact hfilter.symm

/-- Behind the device trees that are found, the order of the queue decides. -/
theorem dtbsFirst_prepare_iff (imagePath : List UInt8) (files : Array SrcFile) :
    DtbsFirst (prepare imagePath files) ↔
      DtbsFirst (arrange imagePath files.toList.length [] [] files.toList).2 := by
  rw [(prepare_eq imagePath files).1]
  exact dtbsFirst_append_iff (arrange_dtbs _ _ _ (fun f hf => absurd hf List.not_mem_nil))

/-- **Which files are packed, and in which order.** The packed files are the ones that are not the image
    exactly if no image is a device tree or among the last files, one less than there are images. Then
    device trees come first if none is among the last files, as many as there are images, or if there
    are no other files. With the image once, a device tree as the last file and none between the two,
    they come first exactly if only device trees stand before the image. -/
theorem prepare_iff (imagePath : List UInt8) (files : Array SrcFile) :
    ((prepare imagePath files).Perm (files.toList.filter (fun f => ¬ IsImage imagePath f)) ↔
        Separable imagePath files.toList) ∧
      (Separable imagePath files.toList →
        ((∀ f ∈ lastFiles (images imagePath files.toList) files.toList, isDtb f.name = false) ∨
          ∀ f ∈ files.toList, ¬ IsImage imagePath f → isDtb f.name = true) →
        DtbsFirst (prepare imagePath files)) ∧
      ∀ before image between last, files.toList = before ++ image :: (between ++ [last]) →
        IsImage imagePath image → isDtb image.name = false →
        (∀ f ∈ before ++ between, ¬ IsImage imagePath f) →
        isDtb last.name = true → (∀ f ∈ between, isDtb f.name = false) →
        (DtbsFirst (prepare imagePath files) ↔ ∀ f ∈ before, isDtb f.name = true) := by
  refine ⟨prepare_perm_iff imagePath files, fun hsep hcond => ?_, ?_⟩
  · rcases hcond with hlast | hall
    · rw [dtbsFirst_prepare_iff]
      exact dtbsFirst_of_none (arrange_queue _ le_rfl hsep
        (fun f hf => absurd hf List.not_mem_nil) hlast)
    · refine dtbsFirst_of_all (fun f hf => ?_)
      have := ((prepare_perm_iff imagePath files).2 hsep).mem_iff.1 hf
      rw [List.mem_filter] at this
      exact hall f this.1 (of_decide_eq_true this.2)
  · intro before image between last hfiles himage hplain hother hlast hbetween
    rw [List.forall_mem_append] at hother
    obtain ⟨queue, hperm, hrun⟩ := @arrange_once imagePath before between image last himage hplain
      hother.1 hother.2 hbetween
    have hqueue : ∀ f ∈ queue, isDtb f.name = false := by
      intro f hf
      have := (List.mem_filter.1 (hperm.mem_iff.1 hf)).2
      simpa using this
    rw [dtbsFirst_prepare_iff, hfiles, hrun, dtbsFirst_insert_iff hqueue hlast hbetween]
    rw [← List.length_eq_zero_iff, hperm.length_eq, List.length_eq_zero_iff, List.filter_eq_nil_iff]
    simp

end Order

/-- `x.img`, `a.bmp` and `b.dtb`, without contents. -/
def xImg : SrcFile := ⟨[120, 46, 105, 109, 103], [], by decide, by decide, by decide⟩

def aBmp : SrcFile := ⟨[97, 46, 98, 109, 112], [], by decide, by decide, by decide⟩

def bDtb : SrcFile := ⟨[98, 46, 100, 116, 98], [], by decide, by decide, by decide⟩

/-- The last file is no device tree. -/
theorem prepare_iff_lastBmp : DtbsFirst (prepare xImg.name #[bDtb, xImg, aBmp]) :=
  (prepare_iff xImg.name #[bDtb, xImg, aBmp]).2.1 ⟨by decide, by decide⟩ (.inl (by decide))

-- A device tree that is found later can bring the one from the end to the front.
example : (prepare xImg.name #[aBmp, xImg, bDtb, bDtb]).map SrcFile.name
    = [bDtb.name, bDtb.name, aBmp.name] := by decide

/-- A device tree from the end stays behind another file; the image is packed when it is given twice,
    and when it has the name of a device tree. -/
theorem prepare_unseen :
    (prepare xImg.name #[aBmp, xImg, bDtb]).map SrcFile.name = [aBmp.name, bDtb.name] ∧
      ¬ DtbsFirst (prepare xImg.name #[aBmp, xImg, bDtb]) ∧
      (prepare xImg.name #[xImg, xImg]).map SrcFile.name = [xImg.name] ∧
      (prepare bDtb.name #[bDtb]).map SrcFile.name = [bDtb.name] := by
  decide

end Resource
