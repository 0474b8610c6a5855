import Octopos.Fs.Image

/-!
# Writes from kernel memory

`Inode::write` copies from user memory what fits into the current block, but from kernel memory it
copies all that is left of the source. So a write from kernel memory runs past the end of the cached
block as soon as it crosses a block boundary; the directory entries that the kernel writes do not
(`kernelWrite_iff`).
-/

namespace Octopos

/-! ## Functions that do not overrun a buffer -/

/-- The function does not copy past the end of a buffer. -/
def InBounds {α : Type} (m : FsM α) : Prop := ∀ s, wp m (fun _ _ => True) (fun e => e ≠ .overrun) s

theorem InBounds.bind {α β : Type} {m : FsM α} {f : α → FsM β} (hm : InBounds m)
    (hf : ∀ a, InBounds (f a)) : InBounds (m >>= f) :=
  fun s => wp_bind.2 (wp_mono (hm s) (fun a s' _ => hf a s') fun _ he => he)

theorem InBounds.ite {α : Type} {c : Prop} [Decidable c] {m m' : FsM α} (hm : InBounds m)
    (hm' : InBounds m') : InBounds (if c then m else m') :=
  fun s => wp_ite (fun _ => hm s) fun _ => hm' s

section InBounds

variable {sb : SuperBlock} {ip : Inode}

theorem Log.write_inBounds (b : ℕ) : InBounds (Log.write sb b) := by
  refine .bind (fun _ => trivial) fun s => .ite (fun _ => ?_) (.ite (fun _ => ?_) (.ite (fun _ => ?_) (.ite ?_ ?_)))
  · exact wp_throw.2 (by decide)
  · exact wp_throw.2 (by decide)
  · exact wp_throw.2 (by decide)
  · exact fun _ => trivial
  · exact fun _ => trivial

theorem Block.zero_inBounds (b : ℕ) : InBounds (Block.zero sb b) :=
  .bind (fun _ => trivial) fun _ => .bind (fun _ => trivial) fun _ =>
    .bind (Log.write_inBounds b) fun _ _ => trivial

theorem Block.allocIn_inBounds (groups : List ℕ) : InBounds (Block.allocIn sb groups) := by
  induction groups with
  | nil => exact fun _ => trivial
  | cons g groups ih =>
    refine .bind (fun _ => trivial) fun buf => ?_
    cases Block.firstClear buf (min BPB (sb.size - g * BPB)) 0 with
    | none => exact .bind (fun _ => trivial) fun _ => ih
    | some bi =>
      exact .bind (fun _ => trivial) fun _ => .bind (Log.write_inBounds _) fun _ =>
        .bind (fun _ => trivial) fun _ => .bind (Block.zero_inBounds _) fun _ _ => trivial

theorem Inode.mapDirect_inBounds (k : Fin (NDIRECT + 1)) : InBounds (mapDirect sb ip k) := by
  refine .bind (fun _ => trivial) fun inner => .ite (.bind (Block.allocIn_inBounds _) fun r => ?_) ?_
  · cases r with
    | error e => exact fun _ => trivial
    | ok b => exact .bind (fun _ => trivial) fun _ _ => trivial
  · exact fun _ => trivial

theorem Inode.map_inBounds (blockNo : ℕ) : InBounds (map sb ip blockNo) := by
  unfold map
  split_ifs
  · exact Inode.mapDirect_inBounds _
  · refine .bind (Inode.mapDirect_inBounds _) fun r => ?_
    cases r with
    | error e => exact fun _ => trivial
    | ok indirect =>
      refine .bind (fun _ => trivial) fun buf => .ite (.bind (Block.allocIn_inBounds _) fun r => ?_) ?_
      · cases r with
        | error e => exact fun _ => trivial
        | ok b =>
          exact .bind (fun _ => trivial) fun _ => .bind (Log.write_inBounds _) fun _ =>
            .bind (fun _ => trivial) fun _ _ => trivial
      · exact .bind (fun _ => trivial) fun _ _ => trivial
  · exact fun _ => trivial

theorem Inode.update_inBounds : InBounds (update sb ip) :=
  .bind (fun _ => trivial) fun _ => .bind (fun _ => trivial) fun _ => .bind (fun _ => trivial) fun _ =>
    .bind (Log.write_inBounds _) fun _ _ => trivial

theorem Inode.writeLoop_inBounds {data : Bytes} {length accessible fuel offset rest total : ℕ} :
    InBounds (writeLoop sb ip ⟨data, length, some accessible⟩ fuel offset rest total) := by
  induction fuel generalizing offset rest total with
  | zero => exact fun _ => wp_throw.2 (by decide)
  | succ fuel ih =>
    unfold writeLoop
    refine .ite (fun _ => trivial) (.bind (Inode.map_inBounds _) fun r => ?_)
    cases r with
    | error e => exact fun _ => trivial
    | ok addr =>
      refine .bind (fun _ => trivial) fun _ => .ite ?_ ?_
      · exact .bind (fun _ => trivial) fun _ => .bind (Log.write_inBounds _) fun _ =>
          .bind (fun _ => trivial) fun _ => ih
      · exact .bind (fun _ => trivial) fun _ => .bind (fun _ => trivial) fun _ _ => trivial

theorem Inode.write_inBounds {data : Bytes} {length accessible offset : ℕ} :
    InBounds (write sb ip offset ⟨data, length, some accessible⟩) := by
  refine .bind (fun _ => trivial) fun inner => .ite (fun _ => trivial) (.ite (fun _ => trivial) ?_)
  refine .bind Inode.writeLoop_inBounds fun reached => .ite ?_ ?_
  · exact .bind (fun _ => trivial) fun _ => .bind Inode.update_inBounds fun _ _ => trivial
  · exact .bind Inode.update_inBounds fun _ _ => trivial

end InBounds

/-! ## The two copies -/

theorem run_bind_ok {ε σ α β : Type} {m : Prog ε σ α} {f : α → Prog ε σ β} {a : α} {s s' : σ}
    (h : m.run s = .ok (a, s')) : (m >>= f).run s = (f a).run s' := by
  rw [StateT.run_bind, h]
  rfl

section KernelWrite

variable {sb : SuperBlock} {ip : Inode} {s : Fs} {data : Bytes} {length offset : ℕ}

theorem Inode.writeLoop_oneBlock (hfit : offset % BSIZE + length ≤ BSIZE) :
    writeLoop sb ip ⟨data, length, none⟩ (length + 1) offset length 0 =
      writeLoop sb ip ⟨data, length, some length⟩ (length + 1) offset length 0 := by
  have hm : min length (BSIZE - offset % BSIZE) = length := by omega
  cases length with
  | zero => rfl
  | succ n =>
    unfold writeLoop
    simp only [hm, zero_add, ne_eq, not_true_eq_false, le_refl, if_true, if_false, Nat.sub_self]
    unfold writeLoop
    simp only [if_true]

/-- Across a block boundary, the copy from kernel memory overruns the first block, if there is
one. -/
theorem Inode.writeLoop_cross (sb : SuperBlock) (ip : Inode) (s : Fs) (data : Bytes)
    (hcross : BSIZE < offset % BSIZE + length) :
    (writeLoop sb ip ⟨data, length, none⟩ (length + 1) offset length 0).run s =
      match (map sb ip (offset / BSIZE)).run s with
      | .error e => .error e
      | .ok (.error _, s1) => .ok (offset, s1)
      | .ok (.ok _, _) => .error .overrun := by
  have hmod : offset % BSIZE < BSIZE := Nat.mod_lt _ (by decide)
  have hne : length ≠ min length (BSIZE - offset % BSIZE) := by omega
  unfold writeLoop
  simp only [if_pos hne]
  rw [if_neg (by omega), StateT.run_bind]
  rcases (map sb ip (offset / BSIZE)).run s with e | ⟨e | addr, s1⟩ <;> rfl

/-- If there is no first block, the copy from user memory is not reached either. -/
theorem Inode.writeLoop_noBlock (data : Bytes) (accessible : ℕ) (hlen : 0 < length)
    (hno : ∀ b s1, (map sb ip (offset / BSIZE)).run s ≠ .ok (.ok b, s1)) :
    (writeLoop sb ip ⟨data, length, some accessible⟩ (length + 1) offset length 0).run s =
      match (map sb ip (offset / BSIZE)).run s with
      | .error e => .error e
      | .ok (.error _, s1) => .ok (offset, s1)
      | .ok (.ok _, _) => .error .overrun := by
  unfold writeLoop
  rw [if_neg (by omega), StateT.run_bind]
  rcases hmap : (map sb ip (offset / BSIZE)).run s with e | ⟨e | addr, s1⟩
  · rfl
  · rfl
  · exact absurd hmap (hno addr s1)

theorem Inode.write_run (hoffset : offset ≤ (s.itable ip.id).inner.size.toNat)
    (hmax : offset + length ≤ MAXFILE * BSIZE) (user : Option ℕ) :
    (write sb ip offset ⟨data, length, user⟩).run s =
      (do
        let reached ← writeLoop sb ip ⟨data, length, user⟩ (length + 1) offset length 0
        if (s.itable ip.id).inner.size.toNat < reached then
          modifyInner ip.id fun n => { n with size := UInt32.ofNat reached }
        update sb ip
        return .ok (reached - offset) : FsM (Except FsError ℕ)).run s := by
  have h32 := MAXFILE_mul_BSIZE
  have hmod : length % 2 ^ 32 = length := Nat.mod_eq_of_lt (by omega)
  have hinner : (getInner ip.id).run s = .ok ((s.itable ip.id).inner, s) := rfl
  unfold write
  rw [run_bind_ok hinner]
  simp only [hmod]
  rw [if_neg (by omega), if_neg (by omega)]

/-- A write from kernel memory stays inside of the blocks and does what a write from user memory
does, if and only if it stays in one block or the first block cannot be allocated. -/
theorem kernelWrite_iff (hoffset : offset ≤ (s.itable ip.id).inner.size.toNat)
    (hmax : offset + length ≤ MAXFILE * BSIZE) :
    ((ip.write sb offset ⟨data, length, none⟩).run s ≠ .error .overrun ∧
      (ip.write sb offset ⟨data, length, none⟩).run s =
        (ip.write sb offset ⟨data, length, some length⟩).run s) ↔
    (offset % BSIZE + length ≤ BSIZE ∨
      ∀ b s₁, (ip.map sb (offset / BSIZE)).run s ≠ .ok (.ok b, s₁)) := by
  have huser : (ip.write sb offset ⟨data, length, some length⟩).run s ≠ .error .overrun :=
    fun he => wp_error (Inode.write_inBounds s) he rfl
  rw [Inode.write_run hoffset hmax (some length)] at huser ⊢
  rw [Inode.write_run hoffset hmax none]
  by_cases hfit : offset % BSIZE + length ≤ BSIZE
  · rw [Inode.writeLoop_oneBlock hfit]
    exact iff_of_true ⟨huser, rfl⟩ (Or.inl hfit)
  · have hcross := Inode.writeLoop_cross sb ip s data (not_le.1 hfit)
    have hmod : offset % BSIZE < BSIZE := Nat.mod_lt _ (by decide)
    have hlen : 0 < length := by omega
    by_cases hno : ∀ b s₁, (ip.map sb (offset / BSIZE)).run s ≠ .ok (.ok b, s₁)
    · have hsame := hcross.trans (Inode.writeLoop_noBlock data length hlen hno).symm
      rw [StateT.run_bind] at huser
      rw [StateT.run_bind, StateT.run_bind, hsame]
      exact iff_of_true ⟨huser, rfl⟩ (Or.inr hno)
    · simp only [ne_eq, not_forall, not_not] at hno
      obtain ⟨b, s₁, hmap⟩ := hno
      rw [hmap] at hcross
      refine iff_of_false (fun h => h.1 ?_) fun h => h.elim hfit fun hno => hno b s₁ hmap
      rw [StateT.run_bind, hcross]
      rfl

/-- A directory entry is written inside of one block. -/
theorem kernelWrite_entry :
    (Inode.write mkfsSuper ⟨1, 2⟩ 0 (DirEntry.src ⟨2, DOT⟩)).run openedFs =
      (Inode.write mkfsSuper ⟨1, 2⟩ 0 ⟨DirEntry.bytes ⟨2, DOT⟩, DIRENTSIZE, some DIRENTSIZE⟩).run
        openedFs :=
  (kernelWrite_iff (Nat.zero_le _) (by decide : 0 + DIRENTSIZE ≤ MAXFILE * BSIZE)).2
    (Or.inl (by decide)) |>.2

/-- A write of one block and one byte to an empty file. -/
theorem kernelWrite_overrun :
    0 ≤ (openedFs.itable 1).inner.size.toNat ∧ 0 + (BSIZE + 1) ≤ MAXFILE * BSIZE ∧
      (Inode.write mkfsSuper ⟨1, 2⟩ 0 ⟨fun _ => 1, BSIZE + 1, none⟩).run openedFs =
        .error .overrun := by
  refine ⟨Nat.zero_le _, by decide, eq_of_stopsWith ?_⟩
  decide +kernel

end KernelWrite

end Octopos
