import Octopos.Fs.TableProof

/-!
# A small image

The image that `mkfs` makes for one empty file: the root directory names itself twice and the file.
It is consistent.
-/

namespace Octopos

/-- The superblock that `mkfs` writes. -/
def mkfsSuper : SuperBlock where
  size := 2000
  nblocks := 1953
  ninodes := 200
  nlogs := 31
  logstart := 2
  inodestart := 33
  bmapstart := 46

theorem mkfsSuper_valid : mkfsSuper.Valid := by
  have hB : BPB = 8192 := rfl
  have hI : IPB = 16 := rfl
  refine ⟨fun i hi => ?_, fun b hb => ?_, by decide, by decide, by decide, by decide⟩
  · change i < 200 at hi
    change 33 + i / IPB < 46
    rw [hI]
    omega
  · change b < 2000 at hb
    change 46 + b / BPB < 47
    rw [hB]
    omega

/-- A directory with one block. -/
def dirNode (size addr : UInt32) : InodeInner :=
  ⟨.directory, 0, 0, 1, size, fun k => if k = 0 then addr else 0⟩

/-- The root directory, whose size is that of its block. -/
def rootNode : InodeInner := dirNode 1024 47

def fileNode : InodeInner := ⟨.file, 0, 0, 1, 0, fun _ => 0⟩

/-- The entries of the root directory: `.`, `..` and `f`. -/
def rootBlock : Bytes :=
  blit (blit (blit (fun _ => 0) 0 DIRENTSIZE (DirEntry.bytes ⟨1, DOT⟩))
    16 DIRENTSIZE (DirEntry.bytes ⟨1, DOTDOT⟩)) 32 DIRENTSIZE (DirEntry.bytes ⟨2, [102]⟩)

/-- The image before inodes are written: the bits of the first 48 blocks are set. -/
def blankDisk : ℕ → Bytes :=
  upd (upd (fun _ _ => 0) 46 fun j => if j < 6 then 255 else 0) 47 rootBlock

/-- Write inode `i` to a disk. -/
def storeInode (sb : SuperBlock) (d : ℕ → Bytes) (i : ℕ) (n : InodeInner) : ℕ → Bytes :=
  upd d (sb.inodeBlock i) (n.store (d (sb.inodeBlock i)) (inodeOffset i))

def mkfsDisk : ℕ → Bytes :=
  storeInode mkfsSuper (storeInode mkfsSuper blankDisk 1 rootNode) 2 fileNode

theorem blankDisk_node (i : ℕ) : (mkfsSuper.view blankDisk).node i = default := by
  unfold SuperBlock.view
  dsimp only
  split_ifs with hi
  · have hI : IPB = 16 := rfl
    have hblock : blankDisk (mkfsSuper.inodeBlock i) = fun _ => 0 := by
      have hlt : mkfsSuper.inodeBlock i < 46 := mkfsSuper_valid.inodes i hi
      unfold blankDisk
      rw [upd_of_ne (by omega), upd_of_ne (by omega)]
    rw [hblock]
    rfl
  · rfl

theorem blankDisk_bit {b : ℕ} (hb : b < 2000) :
    (mkfsSuper.view blankDisk).bit b = decide (b < 48) := by
  by_cases hlow : b < 48
  · have h : ∀ b < 48, (mkfsSuper.view blankDisk).bit b = decide (b < 48) := by decide +kernel
    exact h b hlow
  · have hB : BPB = 8192 := rfl
    rw [decide_eq_false hlow, bit_eq_false hb]
    have hzero : blankDisk (mkfsSuper.bmapstart + b / BPB) (b % BPB / 8) = 0 := by
      have hblock : mkfsSuper.bmapstart + b / BPB = 46 := by
        change 46 + b / BPB = 46
        rw [hB]
        omega
      rw [hblock, hB]
      unfold blankDisk
      rw [upd_of_ne (by decide), upd_self, if_neg (by omega)]
    rw [hzero]
    exact UInt8.zero_and

theorem mkfsDisk_view :
    mkfsSuper.view mkfsDisk =
      ((mkfsSuper.view blankDisk).setNode 1 rootNode).setNode 2 fileNode := by
  unfold mkfsDisk storeInode
  rw [view_storeInode mkfsSuper_valid (by decide), view_storeInode mkfsSuper_valid (by decide)]

theorem mkfsDisk_node :
    (mkfsSuper.view mkfsDisk).node = upd (upd (fun _ => default) 1 rootNode) 2 fileNode := by
  rw [mkfsDisk_view, View.setNode_node, View.setNode_node, funext blankDisk_node]

theorem mkfsDisk_bit {b : ℕ} (hb : b < 2000) :
    (mkfsSuper.view mkfsDisk).bit b = decide (b < 48) := by
  rw [mkfsDisk_view]
  exact blankDisk_bit hb

/-! ## Disks whose files have at most one block -/

section OneBlock

variable {v : View} {a : ℕ → UInt32}

theorem places_oneBlock (haddrs : ∀ i, (v.node i).addrs = fun k => if k = 0 then a i else 0)
    (i p : ℕ) : places v.node v.data (i, p) = if p = 0 then (a i).toNat else 0 := by
  rw [places_mk]
  by_cases hp : p < NDIRECT + 1
  · rw [InodeInner.ptr_addr (v.node i) _ ⟨p, hp⟩, haddrs]
    by_cases h0 : p = 0
    · subst h0
      rfl
    · have hne : (⟨p, hp⟩ : Fin (NDIRECT + 1)) ≠ 0 := fun e => h0 (congrArg Fin.val e)
      rw [if_neg h0]
      dsimp only
      rw [if_neg hne]
      rfl
  · have hp0 : p ≠ 0 := fun h0 => hp (by rw [h0]; decide)
    rw [InodeInner.ptr_listed_zero _ (by omega) (by rw [haddrs]; rfl), if_neg hp0]

/-- Such a disk is consistent if the blocks below `m` are in use, and those of them behind the
bitmap belong to the inodes. -/
theorem DiskOk.oneBlock {m : ℕ} (hm : 47 ≤ m ∧ m ≤ 2000)
    (haddrs : ∀ i, (v.node i).addrs = fun k => if k = 0 then a i else 0)
    (hbit : ∀ b < 2000, v.bit b = decide (b < m))
    (hblock : ∀ i, a i ≠ 0 → 47 ≤ (a i).toNat ∧ (a i).toNat < m)
    (hinj : ∀ i j, a i ≠ 0 → a i = a j → i = j)
    (hsurj : ∀ b, 47 ≤ b → b < m → ∃ i, (a i).toNat = b)
    (hsize : ∀ i, (v.node i).size.toNat ≤ 1024 ∧ (a i = 0 → (v.node i).size = 0)) :
    DiskOk mkfsSuper v := by
  have hstart : mkfsSuper.dataStart = 47 := rfl
  have hdisk : mkfsSuper.size = 2000 := rfl
  have hheld {x : ℕ × ℕ} (hx : places v.node v.data x ≠ 0) :
      x.2 = 0 ∧ a x.1 ≠ 0 ∧ places v.node v.data x = (a x.1).toNat := by
    rw [places_oneBlock haddrs x.1 x.2] at hx ⊢
    split_ifs at hx ⊢ with h0
    · exact ⟨h0, ne_zero_of_toNat hx, rfl⟩
    · exact absurd rfl hx
  refine ⟨⟨⟨by decide, fun x hx => ?_, fun x hx => ?_, fun x y hx hxy => ?_, fun b hlo hhi hb => ?_⟩,
    fun b hb hb' => ?_⟩, fun i k hk => ?_⟩
  · obtain ⟨-, hne, heq⟩ := hheld hx
    have hlt := hblock _ hne
    omega
  · obtain ⟨-, hne, heq⟩ := hheld hx
    have hlt := hblock _ hne
    rw [hbit _ (by omega), decide_eq_true_eq]
    omega
  · obtain ⟨hx0, hne, hx'⟩ := hheld hx
    obtain ⟨hy0, -, hy'⟩ := hheld (hxy ▸ hx)
    refine Prod.ext (hinj _ _ hne (UInt32.toNat_inj.1 ?_)) (hx0.trans hy0.symm)
    rw [← hx', ← hy', hxy]
  · rw [hbit b hhi, decide_eq_true_eq] at hb
    obtain ⟨i, hi⟩ := hsurj b hlo hb
    refine ⟨(i, 0), ?_⟩
    rw [places_oneBlock haddrs, if_pos rfl, hi]
  · rw [hbit b hb', decide_eq_true_eq]
    omega
  · have hB : BSIZE = 1024 := rfl
    have hle := hsize i
    rw [hB] at hk
    obtain rfl : k = 0 := by omega
    refine ⟨by decide, ?_⟩
    have hplace : placeOf 0 = 0 := rfl
    rw [hplace, places_oneBlock haddrs, if_pos rfl]
    apply toNat_ne_zero
    intro h0
    rw [hle.2 h0] at hk
    exact absurd hk (by decide)

end OneBlock

theorem mkfsDisk_ok : DiskOk mkfsSuper (mkfsSuper.view mkfsDisk) := by
  have hne {i : ℕ} (hi : upd (fun _ => (0 : UInt32)) 1 47 i ≠ 0) : i = 1 := by
    by_contra hne
    exact hi (upd_of_ne hne)
  refine DiskOk.oneBlock (a := upd (fun _ => 0) 1 47) (m := 48) (by decide) (fun i => ?_) (fun _ => mkfsDisk_bit)
    (fun i hi => ?_) (fun i j hi hij => ?_) (fun b hlo hhi => ⟨1, ?_⟩) (fun i => ?_)
  · rw [mkfsDisk_node]
    by_cases h2 : i = 2
    · subst h2
      decide
    by_cases h1 : i = 1
    · subst h1
      rfl
    · rw [upd_of_ne h2, upd_of_ne h1, upd_of_ne h1]
      decide
  · rw [hne hi]
    decide
  · exact (hne hi).trans (hne (hij ▸ hi)).symm
  · obtain rfl : b = 47 := by omega
    decide
  · rw [mkfsDisk_node]
    by_cases h2 : i = 2
    · subst h2
      decide
    by_cases h1 : i = 1
    · subst h1
      decide
    · rw [upd_of_ne h2, upd_of_ne h1]
      exact ⟨by decide, fun _ => rfl⟩

theorem mkfsDisk_fsOk : FsOk mkfsSuper (mkfsSuper.view mkfsDisk) := by
  have hroot {d : ℕ} (hd : ((mkfsSuper.view mkfsDisk).node d).type = .directory) : d = 1 := by
    rw [mkfsDisk_node] at hd
    by_contra h1
    by_cases h2 : d = 2
    · rw [h2, upd_self] at hd
      cases hd
    · rw [upd_of_ne h2, upd_of_ne h1] at hd
      cases hd
  have hsize : ((mkfsSuper.view mkfsDisk).node 1).size.toNat = 1024 := by
    rw [mkfsDisk_node]
    rfl
  refine ⟨mkfsDisk_ok, fun i hi => ?_, fun d hd => ?_, fun d hd k hk => ?_⟩
  · rw [mkfsDisk_node] at hi ⊢
    by_cases h2 : i = 2
    · rw [h2, upd_self] at hi
      cases hi
    rw [upd_of_ne h2] at hi ⊢
    by_cases h1 : i = 1
    · rw [h1, upd_self] at hi
      cases hi
    rw [upd_of_ne h1]
    exact ⟨rfl, rfl, rfl⟩
  · rw [hroot hd, hsize]
    rfl
  · have hD : DIRENTSIZE = 16 := rfl
    rw [hroot hd, hsize, hD] at hk
    have hall : ∀ k < 64, ((mkfsSuper.view mkfsDisk).entry 1 k).inum.toNat < mkfsSuper.ninodes := by
      decide +kernel
    rw [hroot hd]
    exact hall k (by omega)

/-- The file system after boot: the first process holds the root directory. -/
def mkfsFs : Fs where
  disk := mkfsDisk
  bufs _ := 0
  log := []
  outstanding := 0
  itable id := if id = 0 then ⟨1, ROOTINO, false, false, default⟩ else ⟨0, 0, false, false, default⟩

/-- The image with its file loaded, in an open transaction. -/
def openedFs : Fs :=
  { mkfsFs with
    outstanding := 1
    itable := upd mkfsFs.itable 1 ⟨1, 2, true, true, fileNode⟩ }

theorem openedFs_consistent : Consistent mkfsSuper openedFs := by
  refine ⟨mkfsDisk_ok, by decide, fun id _ hvalid => ?_⟩
  change _ = (mkfsSuper.view mkfsDisk).node _
  rw [mkfsDisk_node]
  by_cases hid : id = 1
  · subst hid
    rfl
  · have : openedFs.itable id = mkfsFs.itable id := upd_of_ne hid
    rw [this] at hvalid
    unfold mkfsFs at hvalid
    dsimp only at hvalid
    split_ifs at hvalid

end Octopos
