import Octopos.Mkfs.ReadBack

/-!
# What does not fit

`mkfs` hands out inodes and blocks by two counters and compares neither with the sizes in the
superblock. When it returns, the image is as the kernel needs it exactly if the files fit
(`mkfs_safe_iff`). The size of the root directory is rounded up to the next block even if it is a
whole number of blocks (`mkfs_holes_iff`).
-/

namespace Octopos

namespace Mkfs

/-! ## The counters -/

theorem allocates_addFile (root : ℕ) (f : InputFile) : Allocates 1 (addFile root f) :=
  .ite (fun _ => allocates_throw _) fun _ => (allocates_allocateInode FILE).bind fun _ =>
    (allocates_appendInode _ _).bind_zero fun _ => allocates_appendInode _ _

theorem allocates_addFiles (root : ℕ) (files : List InputFile) :
    Allocates files.length (files.forM (addFile root)) := by
  intro st
  refine wp_mono (wp_forM (I := fun pre st' => st.freeBlock ≤ st'.freeBlock ∧
    st'.freeInode = st.freeInode + pre.length) (fun pre f post _ st1 h1 => ?_) ⟨le_rfl, rfl⟩)
    (fun _ _ h => h) fun _ h => h
  refine wp_mono (allocates_addFile root f st1) (fun _ st2 h2 => ?_) fun _ h => h
  rw [List.length_append, List.length_singleton]
  exact ⟨h1.1.trans h2.1, by omega⟩

theorem allocates_allocateBlock (used bmapstart : ℕ) : Allocates 0 (allocateBlock used bmapstart) :=
  .ite (fun _ => allocates_throw _) fun _ => allocates_writeSector _ _

theorem allocates_finish (rootino : ℕ) : Allocates 0 (do
    let din ← readInode rootino
    writeInode rootino { din with size := UInt32.ofNat ((din.size.toNat / BSIZE + 1) * BSIZE) }
    let s ← get
    allocateBlock s.freeBlock superBlock.bmapstart.toNat) :=
  (allocates_readInode _).bind_zero fun _ => (allocates_writeInode _ _).bind_zero fun _ =>
    allocates_get.bind_zero fun _ => allocates_allocateBlock _ _

theorem allocates_zero (n : ℕ) :
    Allocates 0 ((List.range n).forM fun i => writeSector i fun _ => 0) := by
  intro st
  refine wp_forM_range (I := fun _ (st' : State) => st.freeBlock ≤ st'.freeBlock ∧
    st'.freeInode = st.freeInode + 0) (fun _ _ _ h => ?_) ⟨le_rfl, rfl⟩
  exact h

/-- `main` allocates an inode for the root directory and one for every file. -/
theorem main_inodes (files : List InputFile) (st : State) :
    wp (main files) (fun _ st' => st'.freeInode = files.length + 2) (fun _ => True) st := by
  unfold main
  rw [wp_bind, wp_modify]
  generalize FSSIZE = n
  have hrest : Allocates (1 + files.length) (do
      (List.range n).forM fun i => writeSector i fun _ => 0
      writeSector 1 (blit (fun _ => 0) 0 32 superBlock.bytes)
      let rootino ← allocateInode DIRECTORY
      if rootino ≠ ROOTINO then throw .rootIno
      else
        let de := Directory.setName ⟨UInt16.ofNat ROOTINO, fun _ => 0⟩ DOT
        appendInode rootino de.bytes
        let de := Directory.setName de DOTDOT
        appendInode rootino de.bytes
        files.forM (addFile rootino)
        let din ← readInode rootino
        writeInode rootino { din with size := UInt32.ofNat ((din.size.toNat / BSIZE + 1) * BSIZE) }
        let s ← get
        allocateBlock s.freeBlock superBlock.bmapstart.toNat : MkfsM PUnit) := by
    refine (allocates_zero n).bind_zero fun _ => (allocates_writeSector _ _).bind_zero fun _ => ?_
    refine (allocates_allocateInode _).bind fun rootino => .ite (fun _ => allocates_throw _) fun _ => ?_
    refine (allocates_appendInode _ _).bind_zero fun _ => (allocates_appendInode _ _).bind_zero fun _ => ?_
    rw [← add_zero files.length]
    exact (allocates_addFiles _ _).bind fun _ => allocates_finish rootino
  refine wp_mono (hrest _) (fun _ st' h => ?_) fun _ h => h
  rw [h.2]
  dsimp only
  omega

end Mkfs

/-! ## Running out of blocks -/

section Over

open Mkfs

variable {st : Mkfs.State}

theorem Mkfs.wp_over_bind {α β : Type} {m : MkfsM α} {f : α → MkfsM β} {n k : ℕ}
    (hf : ∀ a, Allocates k (f a)) (hm : wp m (fun _ st' => n < st'.freeBlock) (fun _ => True) st) :
    wp (m >>= f) (fun _ st' => n < st'.freeBlock) (fun _ => True) st := by
  rw [wp_bind]
  refine wp_mono hm (fun a st1 h1 => ?_) fun _ h => h
  exact wp_mono (hf a st1) (fun _ _ h2 => h1.trans_le h2.1) fun _ h => h

/-- If the files need more blocks than there are, `main` hands out blocks behind the end. -/
theorem Mkfs.main_over {files : List InputFile} (hcount : files.length + 2 ≤ NINODES)
    (hover : FSSIZE < imageBlocks files) :
    wp (main files) (fun _ st' => FSSIZE < st'.freeBlock) (fun _ => True) st := by
  refine Mkfs.main_of_loop mkfsSuper_layout (by decide) (fun _ hb hlt => absurd hlt (Nat.not_lt.2 hb))
    fun v0 st0 hbuilt h0 => Mkfs.wp_over_bind (fun _ => allocates_finish ROOTINO) ?_
  refine wp_mono (wp_forM (I := fun pre st' => FSSIZE < st'.freeBlock ∨ ∃ v fb, fb ≤ FSSIZE ∧
    Built mkfsSuper pre v fb ∧ ImageAt mkfsSuper v fb (pre.length + 2) st') ?_
    (Or.inr ⟨v0, _, by decide, hbuilt, h0⟩)) ?_ fun _ h => h
  · rintro pre f post hl st' (hlt | ⟨v, fb, hle, hb, hs⟩)
    · exact wp_mono (allocates_addFile _ _ _) (fun _ _ h => Or.inl (hlt.trans_le h.1)) fun _ h => h
    have hlen : pre.length + 1 + post.length = files.length := by simp [hl]; omega
    refine Mkfs.addFile_wp (show _ ≤ NINODES by omega) (Or.inr trivial) (Or.inr trivial)
      (Or.inr ⟨hle, fun _ => trivial, fun _ _ h => Or.inl h⟩) hb hs ?_
    intro v' fb' st'' hb' hle' hs'
    exact Or.inr ⟨v', fb', hle', hb', hs'⟩
  · rintro _ st' (hlt | ⟨v, fb, hle, hb, -⟩)
    · exact hlt
    · have := hb.count
      omega

end Over

section Large

variable {st : Mkfs.State}

theorem Mkfs.addFile_max {root : ℕ} {f : InputFile} :
    wp (Mkfs.addFile root f) (fun _ _ => f.data.length ≤ MAXFILE * BSIZE) (fun _ => True) st := by
  unfold Mkfs.addFile
  refine wp_ite (fun _ => trivial) fun _ => ?_
  -- the contents are appended after the inode and the entry
  iterate 2 refine wp_bind.2 (wp_mono wp_true (fun _ _ _ => ?_) fun _ h => h)
  unfold Mkfs.appendInode
  refine wp_bind.2 (wp_mono wp_true (fun din _ _ => ?_) fun _ h => h)
  rw [wp_bind]
  refine wp_mono (Mkfs.appendLoop_max _ _ _ _) (fun _ _ hmax => ?_) fun _ h => h
  refine wp_mono wp_true (fun _ _ _ => ?_) fun _ h => h
  by_cases hdata : f.data = []
  · rw [hdata]
    exact Nat.zero_le _
  · exact (Nat.le_add_left ..).trans (hmax hdata)

theorem Mkfs.main_max (files : List InputFile) :
    wp (Mkfs.main files) (fun _ _ => ∀ f ∈ files,
      f.data.length ≤ MAXFILE * BSIZE) (fun _ => True) st := by
  unfold Mkfs.main
  generalize FSSIZE = n
  iterate 3 refine wp_bind.2 (wp_mono wp_true (fun _ _ _ => ?_) fun _ h => h)
  refine wp_bind.2 (wp_mono wp_true (fun rootino _ _ => wp_ite (fun _ => trivial) fun _ => ?_) fun _ h => h)
  iterate 2 refine wp_bind.2 (wp_mono wp_true (fun _ _ _ => ?_) fun _ h => h)
  rw [wp_bind]
  refine wp_mono (wp_forM (I := fun pre _ => ∀ f ∈ pre, f.data.length ≤ MAXFILE * BSIZE) ?_ ?_)
    (fun _ _ h => wp_mono wp_true (fun _ _ _ => h) fun _ h => h) fun _ h => h
  · intro pre f post _ st' hpre
    refine wp_mono Mkfs.addFile_max (fun _ _ hf g hg => ?_) fun _ h => h
    rcases List.mem_append.1 hg with hg | hg
    · exact hpre g hg
    · rwa [List.mem_singleton.1 hg]
  · exact fun f hf => absurd hf List.not_mem_nil

end Large

/-! ## The finished image -/

/-- The image is as its superblock says: the inodes and blocks that were handed out are counted
there, every address of an inode is that of a data block which the bitmap marks, and the regions
before the data hold what was written for them. -/
structure ImageSafe (st : Mkfs.State) : Prop where
  inodes : ∀ i, 0 < i → i < st.freeInode → i < mkfsSuper.ninodes
  blocks : ∀ b, NMETA ≤ b → b < st.freeBlock → b < mkfsSuper.size
  addrs : ∀ x, places (mkfsSuper.view st.sector).node (mkfsSuper.view st.sector).data x ≠ 0 →
    NMETA ≤ places (mkfsSuper.view st.sector).node (mkfsSuper.view st.sector).data x ∧
    places (mkfsSuper.view st.sector).node (mkfsSuper.view st.sector).data x < mkfsSuper.size ∧
    (mkfsSuper.view st.sector).bit
      (places (mkfsSuper.view st.sector).node (mkfsSuper.view st.sector).data x) = true
  regions : Regions st

/-- No inode of the image has a hole below its size. -/
def NoHoles (d : ℕ → Bytes) : Prop :=
  ∀ i k, k * BSIZE < ((mkfsSuper.view d).node i).size.toNat →
    places (mkfsSuper.view d).node (mkfsSuper.view d).data (i, placeOf k) ≠ 0

theorem Mkfs.main_room {files : List InputFile} {st : Mkfs.State} {E : Mkfs.Panic → Prop}
    (hroom : RoomFor mkfsSuper files)
    (hname : ∀ f ∈ files, f.name.length < DIRSIZE ∨ E .nameLength)
    (hsize : ∀ f ∈ files, f.data.length ≤ MAXFILE * BSIZE ∨ E .maxFile) :
    wp (Mkfs.main files) (fun _ st' => ImageOk files st'.sector ∧ Regions st' ∧
      st'.freeBlock = imageBlocks files ∧ st'.freeInode = files.length + 2) E st := by
  refine Mkfs.main_of_finish mkfsSuper_layout hroom (fun _ hb hlt => absurd hlt (Nat.not_lt.2 hb))
    hname hsize fun _ _ _ hbuilt h => ?_
  rw [← hbuilt.count]
  exact Mkfs.finish_wp hroom hbuilt h

theorem Mkfs.main_returned {files : List InputFile} (hroom : RoomFor mkfsSuper files)
    {st st' : Mkfs.State} (hrun : (Mkfs.main files).run st = .ok (⟨⟩, st')) :
    ImageOk files st'.sector ∧ Regions st' ∧ st'.freeBlock = imageBlocks files ∧
    st'.freeInode = files.length + 2 :=
  wp_ok (Mkfs.main_room (E := fun _ => True) hroom (fun _ _ => Or.inr trivial) fun _ _ => Or.inr trivial)
    hrun

/-- When `mkfs` finishes, its image is safe exactly if there were inodes and blocks enough. -/
theorem mkfs_safe_iff (files : List InputFile) (st st' : Mkfs.State)
    (hrun : (Mkfs.main files).run st = .ok (⟨⟩, st')) :
    ImageSafe st' ↔ files.length + 2 ≤ NINODES ∧ imageBlocks files ≤ FSSIZE := by
  constructor
  · intro hsafe
    have hinode := wp_ok (Mkfs.main_inodes files st) hrun
    have hcount : files.length + 2 ≤ NINODES :=
      hsafe.inodes (files.length + 1) (Nat.succ_pos _) (by omega)
    refine ⟨hcount, not_lt.1 fun hover => ?_⟩
    have hblock := wp_ok (Mkfs.main_over hcount hover) hrun
    exact absurd (hsafe.blocks FSSIZE (by decide) hblock) (lt_irrefl _)
  · rintro ⟨hcount, hblocks⟩
    obtain ⟨hok, hregions, hfb, hfi⟩ := Mkfs.main_returned ⟨hcount, hblocks⟩ hrun
    refine ⟨fun i _ hi => ?_, fun b _ hb => ?_, fun x hx => ?_, hregions⟩
    · exact hi.trans_le (hfi.trans_le hcount)
    · exact hb.trans_le (hfb.trans_le hblocks)
    · have hrange := hok.own.owned.range x hx
      exact ⟨hrange.1, hrange.2, hok.own.owned.used x hx⟩

theorem mkfs_safe_sample :
    ∃ st', (Mkfs.main [sampleFile]).run ⟨fun _ _ => 0, 0, 0⟩ = .ok (⟨⟩, st') ∧ ImageSafe st' := by
  obtain ⟨⟨⟩, st', hrun, -⟩ := wp_total (s := ⟨fun _ _ => 0, 0, 0⟩) (Mkfs.main_wp sampleFile_fits)
  exact ⟨st', hrun, (mkfs_safe_iff [sampleFile] _ st' hrun).2 (by decide)⟩

/-- An empty file `e`. -/
def emptyFile : InputFile where
  name := [101]
  data := []
  ne_nil := by decide
  no_slash := by decide
  no_nul := by decide
  ne_dot := by decide
  ne_dotdot := by decide

theorem imageBlocks_replicate (n : ℕ) :
    imageBlocks (List.replicate n emptyFile) = NMETA + blocksOf (DIRENTSIZE * (n + 2)) := by
  unfold imageBlocks
  rw [List.length_replicate, List.map_replicate, List.sum_replicate]
  exact Nat.add_eq_left.2 (Nat.mul_zero n)

/-- The blocks of inodes have room for more inodes than the superblock counts. -/
def wideSuper : SuperBlock := { mkfsSuper with ninodes := NINODEBLOCKS * IPB }

theorem wideSuper_layout : MkfsLayout wideSuper where
  valid := { mkfsSuper_valid with
    inodes := fun i hi => by
      have hi' : i < 208 := hi
      change 33 + i / IPB < 46
      rw [show IPB = 16 from rfl]
      omega
    ninodes_le := by decide
    root := by decide }
  inodestart := rfl
  bmapstart := rfl
  dataStart := by decide
  size_le := by decide
  ninodes_le := le_rfl

/-- With 199 files, `mkfs` finishes and has allocated inode 200, which is not below `ninodes`. -/
theorem mkfs_too_many_files : ∃ st',
    (Mkfs.main (List.replicate 199 emptyFile)).run ⟨fun _ _ => 0, 0, 0⟩ = .ok (⟨⟩, st') ∧
      mkfsSuper.ninodes = 200 ∧ 200 < st'.freeInode ∧ ¬ImageSafe st' := by
  have hmain : wp (Mkfs.main (List.replicate 199 emptyFile)) (fun _ _ => True) (fun _ => False)
      ⟨fun _ _ => 0, 0, 0⟩ := by
    have hblocks : imageBlocks (List.replicate 199 emptyFile) = 51 := by
      rw [imageBlocks_replicate]
      decide
    refine Mkfs.main_of_finish wideSuper_layout ⟨?_, ?_⟩ (fun _ _ _ => rfl) ?_ ?_ ?_
    · rw [List.length_replicate]
      decide
    · rw [hblocks]
      decide
    · intro f hf
      rw [List.eq_of_mem_replicate hf]
      exact Or.inl (by decide)
    · intro f hf
      rw [List.eq_of_mem_replicate hf]
      exact Or.inl (by decide)
    · intro v fb st' hbuilt h
      refine wp_bind.2 (wp_bind.2 (wp_bind.2 (wp_ite (fun hbig => absurd hbig ?_) fun _ => trivial)))
      change ¬BPB ≤ st'.freeBlock
      rw [h.freeBlock, hbuilt.count, hblocks]
      decide
  obtain ⟨⟨⟩, st', hrun, -⟩ := wp_total hmain
  have hinode := wp_ok (Mkfs.main_inodes _ _) hrun
  rw [List.length_replicate] at hinode
  refine ⟨st', hrun, rfl, by omega, fun hsafe => ?_⟩
  exact absurd (hsafe.inodes 200 (by decide) (by omega)) (by decide)

/-- For files that fit, `mkfs` leaves no hole exactly if the entries of the root directory do not
fill its last block. -/
theorem mkfs_holes_iff (files : List InputFile) (hroom : RoomFor mkfsSuper files)
    (st st' : Mkfs.State) (hrun : (Mkfs.main files).run st = .ok (⟨⟩, st')) :
    NoHoles st'.sector ↔ (files.length + 2) % (BSIZE / DIRENTSIZE) ≠ 0 := by
  have hD : DIRENTSIZE = 16 := rfl
  have hB : BSIZE = 1024 := rfl
  have hcount : files.length + 2 ≤ 200 := hroom.count
  have hok := (Mkfs.main_returned hroom hrun).1
  have hmax := wp_ok (Mkfs.main_max files) hrun
  have hroot : ((mkfsSuper.view st'.sector).node ROOTINO).size.toNat =
      (16 * (files.length + 2) / 1024 + 1) * 1024 := hok.size
  have hpacked : ∀ k < 268, _ ↔ k * 1024 < 16 * (files.length + 2) := hok.packed.blocks
  rw [hD, hB]
  constructor
  · intro hholes
    have hlast := (hpacked (16 * (files.length + 2) / 1024) (by omega)).1
      (hholes ROOTINO _ (by rw [hroot, hB]; omega))
    omega
  · intro hmod i k hk
    by_cases hi : i = ROOTINO
    · rw [hi, hroot, hB] at hk
      rw [hi]
      exact (hpacked k (by omega)).2 (by omega)
    by_cases hblank : i = 0 ∨ files.length + 2 ≤ i
    · rw [hok.blank i hblank] at hk
      exact absurd hk (Nat.not_lt_zero _)
    have hR : ROOTINO = 1 := rfl
    obtain ⟨j, rfl⟩ : ∃ j, i = j + 2 := ⟨i - 2, by omega⟩
    have hj : j < files.length := by omega
    have hfile := hok.files j hj
    have hlen : files[j].data.length ≤ 268 * 1024 := hmax _ (List.getElem_mem hj)
    rw [hfile.size] at hk
    refine (hfile.packed.blocks k ?_).2 hk
    rw [hB] at hk
    change k < 268
    omega

/-- The image of one small file. -/
theorem mkfs_holes_sample :
    ∃ st', (Mkfs.main [sampleFile]).run ⟨fun _ _ => 0, 0, 0⟩ = .ok (⟨⟩, st') ∧
    NoHoles st'.sector := by
  obtain ⟨⟨⟩, st', hrun, -⟩ := wp_total (s := ⟨fun _ _ => 0, 0, 0⟩) (Mkfs.main_wp sampleFile_fits)
  exact ⟨st', hrun, (mkfs_holes_iff [sampleFile] sampleFile_fits.room _ st' hrun).2 (by decide)⟩

/-- With 62 files the entries of the root directory fill one block, and its size is that of two. -/
theorem mkfs_root_hole : ∃ st',
    (Mkfs.main (List.replicate 62 emptyFile)).run ⟨fun _ _ => 0, 0, 0⟩ = .ok (⟨⟩, st') ∧
      ((mkfsSuper.view st'.sector).node ROOTINO).size.toNat = 2 * BSIZE ∧
      places (mkfsSuper.view st'.sector).node (mkfsSuper.view st'.sector).data
        (ROOTINO, placeOf 1) = 0 ∧
      ¬NoHoles st'.sector := by
  have hroom : RoomFor mkfsSuper (List.replicate 62 emptyFile) := by
    refine ⟨?_, ?_⟩
    · rw [List.length_replicate]
      decide
    · rw [imageBlocks_replicate]
      decide
  obtain ⟨⟨⟩, st', hrun, hok, -⟩ := wp_total (s := ⟨fun _ _ => 0, 0, 0⟩) <| Mkfs.main_room hroom
    (fun f hf => Or.inl (by rw [List.eq_of_mem_replicate hf]; decide))
    fun f hf => Or.inl (by rw [List.eq_of_mem_replicate hf]; decide)
  have hsize := hok.size
  have hplace := (hok.packed.blocks 1 (by decide)).not
  rw [List.length_replicate] at hsize hplace
  have hzero := not_not.1 (hplace.2 (by decide))
  refine ⟨st', hrun, hsize, hzero, fun hholes => hholes ROOTINO 1 ?_ hzero⟩
  rw [hsize]
  decide

end Octopos
