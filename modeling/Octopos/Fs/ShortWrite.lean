import Octopos.Fs.Image

/-!
# What a short write changes

`Inode::write` copies from user memory straight into the cached block. When the source becomes
unreadable in the middle of a block, the bytes before that point are in the block although the write
does not count them. So the file changes behind the bytes that the call reports, unless these bytes
are the old ones or lie behind the end of the file (`write_reports`).
-/

namespace Octopos

section ShortWrite

variable {sb : SuperBlock} {s s' : Fs} {ip : Inode}

theorem Inode.writeLoop_length (sb : SuperBlock) (ip : Inode) (src : Src)
    (length fuel offset rest total : ℕ) :
    writeLoop sb ip { src with length := length } fuel offset rest total =
      writeLoop sb ip src fuel offset rest total := by
  induction fuel generalizing offset rest total with
  | zero => rfl
  | succ fuel ih =>
    unfold writeLoop
    simp only [ih]

theorem Inode.write_mod (sb : SuperBlock) (ip : Inode) (offset : ℕ) (src : Src) :
    write sb ip offset { src with length := src.length % 2 ^ 32 } = write sb ip offset src := by
  unfold write
  simp only [Nat.mod_mod, Inode.writeLoop_length]

/-- The file after `Inode::write` of user memory returned `t`. -/
structure WroteBytes (sb : SuperBlock) (s s' : Fs) (ip : Inode) (offset : ℕ) (src : Src) (t : ℕ) :
    Prop where
  disk : DiskOk sb (sb.view s'.disk)
  synced : Synced (sb.view s'.disk) s'.itable ip
  size : s'.fileSize sb ip.inum = max (s.fileSize sb ip.inum) (offset + t)
  copied : ∃ n, s'.content sb ip.inum = blit (s.content sb ip.inum) offset n src.data ∧
    WriteStop (fun p => places (sb.view s'.disk).node (sb.view s'.disk).data (ip.inum, p)) src offset
      (src.length % 2 ^ 32) 0 (offset + t) n

theorem Inode.write_bytes (hsb : sb.Valid) (hc : Consistent sb s) (hip : s.Loaded ip)
    {offset t : ℕ} {src : Src} (huser : src.user ≠ none)
    (hrun : (ip.write sb offset src).run s = .ok (.ok t, s')) :
    WroteBytes sb s s' ip offset src t := by
  have h32 := MAXFILE_mul_BSIZE
  have hs := hc.synced_of_loaded hip
  have hi : ip.inum < sb.ninodes := hip.2.1 ▸ hc.inum_lt ip.id hip.1
  rw [← Inode.write_mod] at hrun
  have hwrite : wp (ip.write sb offset { src with length := src.length % 2 ^ 32 })
      (fun r s' => ∀ t, r = .ok t → WroteBytes sb s s' ip offset src t) (fun _ => True) s := by
    have hlen : ({ src with length := src.length % 2 ^ 32 } : Src).length < 2 ^ 32 := Nat.mod_lt _ (by decide)
    refine Inode.write_wp hsb ⟨trivial, trivial, trivial⟩ hi hc.disk hs hlen (fun hu => absurd hu huser)
      (fun hmax k => mem_touchedPlaces hmax) ⟨rfl, rfl⟩ ?_ ?_
    · rintro v' reached s' _ hmax hwritten hs' _ ⟨⟩
      obtain ⟨addrs, hnode⟩ := hwritten.node
      obtain ⟨n, hn, hreach, hbyte, hstop⟩ := hwritten.copied
      have hle := hwritten.le
      have hend : offset + (reached - offset) = reached := by omega
      refine ⟨hs'.view.symm ▸ hwritten.disk, ?_, ?_, n, ?_, ?_⟩
      · rw [Synced, hs'.view, hs'.table]
        simp [setInner]
      · unfold Fs.fileSize
        rw [hs'.view, hnode, hend]
        refine Nat.mod_eq_of_lt (max_lt (UInt32.toNat_lt _) ?_)
        dsimp only at hmax hn
        omega
      · unfold Fs.content
        rw [hs'.view]
        exact hbyte
      · rw [hs'.view, hend]
        cases hstop with
        | done hn hacc h => exact .done hn hacc h
        | full hn hacc h => exact .full hn hacc h
        | fault a hu ha hn h => exact .fault a hu ha hn h
    · rintro s' _ _ _ ⟨⟩
  exact wp_ok hwrite hrun t rfl

theorem reads_iff (hd : DiskOk sb (sb.view s.disk)) (hs : Synced (sb.view s.disk) s.itable ip)
    {P : ℕ → UInt8 → Prop} :
    (∀ o len dst n out s', (ip.read sb o len dst).run s = .ok (.ok (n, out), s') → ∀ i < n,
      P (o + i) (out i)) ↔ ∀ x < s.fileSize sb ip.inum, P x (s.content sb ip.inum x) := by
  have hsize : (s.itable ip.id).inner.size.toNat = s.fileSize sb ip.inum := by
    rw [hs]
    rfl
  have hread (o len : ℕ) (dst : Dst) : wp (ip.read sb o len dst) (fun r _ =>
      (∀ n out, r = .ok (n, out) → n = min (len % 2 ^ 32) (s.fileSize sb ip.inum - o) ∧
        ∀ i < n, out i = s.content sb ip.inum (o + i)) ∧
      (dst = .kernel → o ≤ s.fileSize sb ip.inum → o + len % 2 ^ 32 < 2 ^ 32 → ∃ x, r = .ok x))
      (fun _ => False) s := by
    rw [← Inode.read_mod]
    refine Inode.read_wp (hd.own_cur hs) (hd.noHole hs) (Nat.mod_lt _ (by decide)) ⟨rfl, rfl⟩ ?_ ?_
    · rintro n s' hn - - -
      refine ⟨?_, fun _ _ _ => ⟨_, rfl⟩⟩
      rintro n' out ⟨⟩
      refine ⟨by rw [hn, hsize], fun i hi => ?_⟩
      rw [blit, if_pos ⟨Nat.zero_le i, by omega⟩, Nat.sub_zero, hs.contents]
      rfl
    · rintro s' - hbad
      refine ⟨fun n out he => (by cases he), fun hdst ho hlt => ?_⟩
      subst hdst
      rw [hsize] at hbad
      rcases hbad with hbad | hbad | hbad
      · omega
      · omega
      · cases hbad
  constructor
  · intro hall x hx
    -- a read of one byte
    have hmax := (hd.found ip.inum (x / BSIZE) (lt_of_le_of_lt (Nat.div_mul_le_self _ _) hx)).1
    rw [Nat.div_lt_iff_lt_mul (by decide)] at hmax
    have h32 := MAXFILE_mul_BSIZE
    obtain ⟨r, s', hrun, hout, hok⟩ := wp_total (hread x 1 .kernel)
    obtain ⟨⟨n, out⟩, rfl⟩ := hok rfl hx.le (by omega)
    obtain ⟨hn, hbytes⟩ := hout n out rfl
    have h1 : 1 % 2 ^ 32 = 1 := rfl
    rw [h1] at hn
    have hP := hall x 1 .kernel n out s' hrun 0 (by omega)
    rwa [hbytes 0 (by omega), add_zero] at hP
  · intro hall o len dst n out s' hrun i hi
    obtain ⟨hn, hbytes⟩ := (wp_ok (hread o len dst) hrun).1 n out rfl
    rw [hbytes i hi]
    exact hall (o + i) (by omega)

/-- After a write of user memory that returned `t`, the reads of the file see the old bytes outside
of the `t` bytes that were reported if and only if the source can be read to its end, or the bytes
that were copied into the last, unfinished block and lie in the file are the old ones. -/
theorem write_reports (hsb : sb.Valid) (hc : Consistent sb s) (hip : s.Loaded ip) {offset : ℕ}
    (hoffset : offset ≤ s.fileSize sb ip.inum) {data : Bytes} {length accessible t : ℕ}
    (hrun : (ip.write sb offset ⟨data, length, some accessible⟩).run s = .ok (.ok t, s')) :
    (∀ o len dst n out s'', (ip.read sb o len dst).run s' = .ok (.ok (n, out), s'') → ∀ i < n,
      ¬(offset ≤ o + i ∧ o + i < offset + t) → out i = s.content sb ip.inum (o + i)) ↔
    (accessible < length % 2 ^ 32 → ∀ x, max offset ((offset + accessible) / BSIZE * BSIZE) ≤ x →
      x < offset + accessible → x < s.fileSize sb ip.inum →
      data (x - offset) = s.content sb ip.inum x) := by
  obtain ⟨hd, hs, hsize, n, hbyte, hstop⟩ := Inode.write_bytes hsb hc hip (by simp) hrun
  refine (reads_iff (P := fun x b => ¬(offset ≤ x ∧ x < offset + t) → b = s.content sb ip.inum x) hd hs).trans ?_
  rw [hbyte, hsize]
  have hB : BSIZE = 1024 := rfl
  cases hstop with
  | done hn hacc h =>
    have hall := hacc accessible rfl
    dsimp only at hn h
    refine iff_of_true (fun x _ hx => blit_outside ?_) fun hlt => ?_
    · omega
    · omega
  | full hn hacc h =>
    have hall := hacc accessible rfl
    refine iff_of_true (fun x _ hx => blit_outside ?_) fun _ x hlo hhi hx => ?_
    · omega
    · -- the file ends before the block that was not allocated
      have hend : s'.fileSize sb ip.inum ≤ (offset + t) / BSIZE * BSIZE := by
        by_contra hlt
        exact (hd.found ip.inum _ (not_le.1 hlt)).2 h
      rw [hsize, hB] at hend
      rw [hB] at hlo
      omega
  | fault a hu ha hn h =>
    obtain rfl : accessible = a := Option.some.inj hu
    rw [zero_add] at ha
    rw [Nat.sub_zero] at hn
    subst hn
    constructor
    · intro hall _ x hlo hhi hx
      have hnew := hall x (by omega) (by omega)
      rwa [blit, if_pos ⟨by omega, hhi⟩] at hnew
    · intro hold x hx hout
      unfold blit
      split_ifs with hin
      · exact hold ha x (by omega) hin.2 (by omega)
      · rfl

end ShortWrite

/-- A write to an empty file whose source can be read only in part: no read sees what it left in the
block. -/
theorem write_reports_empty :
    ∃ s', (Inode.write mkfsSuper ⟨1, 2⟩ 0 ⟨fun _ => 2, 4, some 2⟩).run openedFs = .ok (.ok 0, s') ∧
      ∀ o len dst n out s'',
        (Inode.read mkfsSuper ⟨1, 2⟩ o len dst).run s' = .ok (.ok (n, out), s'') → ∀ i < n,
        ¬(0 ≤ o + i ∧ o + i < 0 + 0) → out i = openedFs.content mkfsSuper 2 (o + i) := by
  have hrun : returnsOk ((Inode.write mkfsSuper ⟨1, 2⟩ 0 ⟨fun _ => 2, 4, some 2⟩).run openedFs) (fun t _ => t = 0) =
      true := by
    decide +kernel
  obtain ⟨t, s', hs, ht⟩ := exists_of_returnsOk hrun
  obtain rfl := of_decide_eq_true ht
  refine ⟨s', hs, (write_reports mkfsSuper_valid openedFs_consistent (by decide) (Nat.zero_le _) hs).2 ?_⟩
  intro _ x _ _ hx
  change x < ((mkfsSuper.view mkfsDisk).node 2).size.toNat at hx
  rw [mkfsDisk_node] at hx
  exact absurd hx (Nat.not_lt_zero x)

/-- Four bytes are written, and then overwritten from a source of which two bytes can be read: the
second write reports nothing, and a read sees the two bytes. -/
theorem write_reports_nothing :
    ∃ s, (Inode.write mkfsSuper ⟨1, 2⟩ 0 ⟨fun _ => 1, 4, some 4⟩).run openedFs = .ok (.ok 4, s) ∧
      s.content mkfsSuper 2 0 = 1 ∧
      ∃ s', (Inode.write mkfsSuper ⟨1, 2⟩ 0 ⟨fun _ => 2, 4, some 2⟩).run s = .ok (.ok 0, s') ∧
        ∃ out s'', (Inode.read mkfsSuper ⟨1, 2⟩ 0 4 .kernel).run s' = .ok (.ok (4, out), s'') ∧
        out 0 = 2 := by
  have hrun : returnsOk ((Inode.write mkfsSuper ⟨1, 2⟩ 0 ⟨fun _ => 1, 4, some 4⟩).run openedFs) (fun t s =>
      decide (t = 4 ∧ s.content mkfsSuper 2 0 = 1) &&
        returnsOk ((Inode.write mkfsSuper ⟨1, 2⟩ 0 ⟨fun _ => 2, 4, some 2⟩).run s) fun t' s' => decide (t' = 0) &&
          returnsOk ((Inode.read mkfsSuper ⟨1, 2⟩ 0 4 .kernel).run s') fun r _ => r.1 = 4 ∧ r.2 0 = 2) = true := by
    decide +kernel
  obtain ⟨t, s, hs, hrun⟩ := exists_of_returnsOk hrun
  rw [Bool.and_eq_true] at hrun
  obtain ⟨rfl, hbyte⟩ := of_decide_eq_true hrun.1
  obtain ⟨t', s', hs', hrun⟩ := exists_of_returnsOk hrun.2
  rw [Bool.and_eq_true] at hrun
  obtain rfl := of_decide_eq_true hrun.1
  obtain ⟨⟨n, out⟩, s'', hs'', hrun⟩ := exists_of_returnsOk hrun.2
  obtain ⟨rfl, hout⟩ := of_decide_eq_true hrun
  exact ⟨s, hs, hbyte, s', hs', out, s'', hs'', hout⟩

end Octopos
