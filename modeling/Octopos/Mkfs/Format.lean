import Octopos.Mkfs.Main
import Octopos.Fs.Image
import Octopos.Fs.DirProof

/-!
# The kernel reads the structures of `mkfs`

Superblock, inodes, directory entries and the bitmap, written by `mkfs` and read by the kernel.
-/

namespace Octopos

/-! ## The superblock -/

theorem Mkfs.SuperBlock.get32_bytes (sb : Mkfs.SuperBlock) (b : Bytes) {k : ℕ} (hk : k < 8) :
    get32 (blit b 0 32 sb.bytes) (4 * k) = sb.fields.getD k 0 := by
  refine get32_of_leBytes fun i hi => ?_
  have h : blit b 0 32 sb.bytes (4 * k + i) = sb.bytes (4 * k + i) := by
    have hin : blit b 0 32 sb.bytes (0 + (4 * k + i)) = sb.bytes (4 * k + i) :=
      blit_inside (by omega)
    rwa [zero_add] at hin
  rw [h, Mkfs.SuperBlock.bytes, show (4 * k + i) / 4 = k by omega, show (4 * k + i) % 4 = i by omega]

theorem initializeFrom_superBlock (b : Bytes) :
    SuperBlock.initializeFrom (blit b 0 32 Mkfs.superBlock.bytes) = some mkfsSuper := by
  have h (k : ℕ) (hk : k < 8) := Mkfs.superBlock.get32_bytes b hk
  unfold SuperBlock.initializeFrom
  rw [h 0 (by omega), h 1 (by omega), h 2 (by omega), h 3 (by omega), h 4 (by omega),
    h 5 (by omega), h 6 (by omega), h 7 (by omega)]
  rfl

/-- What the kernel sees of an inode of `mkfs`. -/
def Mkfs.DiskInode.toInner (din : Mkfs.DiskInode) : InodeInner where
  type := InodeType.ofU16 din.type
  major := din.major
  minor := din.minor
  nlink := din.nlink
  size := din.size
  addrs := din.addrs

theorem Mkfs.DiskInode.toInner_fromBytes (b : Bytes) (o : ℕ) :
    (fromBytes b o).toInner = InodeInner.load b o := rfl

/-- An inode that `mkfs` stores is the one the kernel stores, up to the number of its type. -/
theorem Mkfs.DiskInode.blit_bytes (din : Mkfs.DiskInode) (b : Bytes) (o : ℕ) :
    blit b o DINODESIZE din.bytes = set16 (din.toInner.store b o) o din.type := by
  have h64 : DINODESIZE = 64 := rfl
  funext i
  unfold set16 InodeInner.store
  by_cases hin : o ≤ i ∧ i < o + DINODESIZE
  · obtain ⟨j, rfl⟩ : ∃ j, i = o + j := ⟨i - o, by omega⟩
    rw [blit_inside (by omega)]
    by_cases hj : j < 2
    · rw [blit_inside hj, bytes, if_pos hj]
    · rw [blit_outside (by omega), blit_inside (by omega), bytes, InodeInner.bytes, if_neg hj, if_neg hj]
      rfl
  · rw [blit_outside (by omega), blit_outside (by omega), blit_outside (by omega)]

theorem Mkfs.DiskInode.load_bytes (din : Mkfs.DiskInode) (b : Bytes) (o : ℕ) :
    InodeInner.load (blit b o DINODESIZE din.bytes) o = din.toInner := by
  rw [din.blit_bytes, InodeInner.load_set16, InodeInner.load_store]
  rfl

/-! ## Directory entries -/

theorem Mkfs.Directory.setName_name {de : Mkfs.Directory} {name : Name} {i : ℕ}
    (h : name.length ≤ i) : (de.setName name).name i = de.name i := by
  unfold setName
  dsimp only
  rw [blit_outside (by omega)]

theorem Mkfs.Directory.bytes_setName {de : Mkfs.Directory} {name : Name}
    (hlen : name.length ≤ DIRSIZE) (hpad : ∀ i, name.length ≤ i → de.name i = 0) :
    (de.setName name).bytes = (List.range DIRENTSIZE).map (DirEntry.bytes ⟨de.inum, name⟩) := by
  refine List.map_congr_left fun i _ => ?_
  unfold DirEntry.bytes
  dsimp only
  split_ifs with hi
  · rfl
  · rw [List.take_of_length_le hlen]
    by_cases hin : i - 2 < name.length
    · have hname : blit de.name 0 name.length (fun i => name.getD i 0) (0 + (i - 2)) =
          name.getD (i - 2) 0 := blit_inside hin
      rwa [zero_add] at hname
    · rw [setName_name (by omega), hpad _ (by omega), List.getD_eq_default _ _ (by omega)]

/-! ## The bitmap -/

theorem Mkfs.usedBits_succ (n : ℕ) :
    usedBits (n + 1) = upd (usedBits n) (n / 8) (usedBits n (n / 8) ||| bitMask n) := by
  unfold usedBits
  rw [List.range_succ, List.foldl_append]
  rfl

theorem Mkfs.usedBits_eq_zero (n b : ℕ) : usedBits n (b / 8) &&& bitMask b = 0 ↔ n ≤ b := by
  induction n with
  | zero =>
    have h : usedBits 0 (b / 8) = 0 := rfl
    rw [h]
    simp
  | succ n ih =>
    rw [usedBits_succ]
    by_cases hbyte : b / 8 = n / 8
    · rw [hbyte, upd_self, or_bitMask_and_bitMask_eq_zero, ← hbyte, ih]
      omega
    · rw [upd_of_ne hbyte, ih]
      omega

end Octopos
