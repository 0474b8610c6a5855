import Octopos.Fs.View

/-!
# What the block allocator does

Rules for the buffers, the log and the block allocator in terms of the meaning of the disk. `At`
names the meaning of the disk and the inode table of a state; the reference counts of buffers and
the log do not enter, except that writing to the log may panic.
-/

namespace Octopos

/-- The state `s` has disk contents `v` and inode table `t`. -/
structure At (sb : SuperBlock) (v : View) (t : Fin NINODE → Slot) (s : Fs) : Prop where
  view : sb.view s.disk = v
  table : s.itable = t

/-- The panics of `log::write` are allowed. -/
structure LogPanics (E : FsPanic → Prop) : Prop where
  noBuffers : E .noBuffers
  tooBig : E .tooBig
  outside : E .outsideTrans

section Block

variable {sb : SuperBlock} {E : FsPanic → Prop} {v : View} {t : Fin NINODE → Slot} {s : Fs}
variable {Q : PUnit → Fs → Prop}
variable {b : ℕ} {d : ℕ → Bytes}

/-! ## Buffers and the log -/

theorem BCache.read_wp {Q : Bytes → Fs → Prop} (h : At sb v t s)
    (hQ : ∀ s', s'.disk = s.disk → At sb v t s' → Q (s.disk b) s') : wp (BCache.read b) Q E s := by
  unfold BCache.read
  rw [wp_bind, wp_get, wp_bind, wp_set, wp_pure]
  exact hQ _ rfl ⟨h.view, h.table⟩

theorem BCache.readData_wp {Q : Bytes → Fs → Prop} (h : At sb v t s) (hb : sb.dataStart ≤ b)
    (hQ : ∀ s', At sb v t s' → Q (v.data b) s') : wp (BCache.read b) Q E s := by
  refine BCache.read_wp h fun s' _ hs' => ?_
  have hdata : s.disk b = v.data b := by
    rw [← h.view]
    exact (if_pos hb).symm
  rw [hdata]
  exact hQ s' hs'

theorem BCache.release_wp (h : At sb v t s) (hQ : ∀ s', At sb v t s' → Q ⟨⟩ s') :
    wp (BCache.release b) Q E s :=
  hQ _ ⟨h.view, h.table⟩

theorem BCache.edit_wp {f : Bytes → Bytes} (v' : View) (h : At sb v t s)
    (hv : sb.view (upd s.disk b (f (s.disk b))) = v') (hQ : ∀ s', At sb v' t s' → Q ⟨⟩ s') :
    wp (BCache.edit b f) Q E s :=
  hQ _ ⟨hv, h.table⟩

theorem BCache.editData_wp (hsb : sb.Valid) {f : Bytes → Bytes} (h : At sb v t s)
    (hb : sb.dataStart ≤ b) (hQ : ∀ s', At sb (v.setData b (f (v.data b))) t s' → Q ⟨⟩ s') :
    wp (BCache.edit b f) Q E s := by
  refine BCache.edit_wp _ h ?_ hQ
  have hdata : s.disk b = v.data b := by
    rw [← h.view]
    exact (if_pos hb).symm
  rw [view_setData hsb hb, h.view, hdata]

theorem Log.write_wp (hE : LogPanics E) (h : At sb v t s) (hQ : ∀ s', At sb v t s' → Q ⟨⟩ s') :
    wp (Log.write sb b) Q E s := by
  unfold Log.write
  rw [wp_bind, wp_get]
  refine wp_ite (fun _ => hE.noBuffers) fun _ => wp_ite (fun _ => hE.tooBig) fun _ =>
    wp_ite (fun _ => hE.outside) fun _ => ?_
  exact wp_ite (fun _ => hQ _ h) fun _ => hQ _ ⟨h.view, h.table⟩

/-! ## The block allocator -/

theorem Block.zero_wp (hsb : sb.Valid) (hE : LogPanics E) (h : At sb v t s) (hb : sb.dataStart ≤ b)
    (hQ : ∀ s', At sb (v.setData b fun _ => 0) t s' → Q ⟨⟩ s') : wp (Block.zero sb b) Q E s := by
  unfold Block.zero
  rw [wp_bind]
  refine BCache.readData_wp h hb fun s h => ?_
  rw [wp_bind]
  refine BCache.editData_wp hsb h hb fun s h => ?_
  rw [wp_bind]
  exact Log.write_wp hE h fun s h => BCache.release_wp h hQ

theorem Block.firstClear_eq_some {buf : Bytes} {n bi k : ℕ}
    (h : Block.firstClear buf n bi = some k) :
    bi ≤ k ∧ k < bi + n ∧ buf (k / 8) &&& bitMask k = 0 := by
  induction n generalizing bi with
  | zero => cases h
  | succ n ih =>
    unfold Block.firstClear at h
    split_ifs at h with hclear
    · cases h
      exact ⟨le_rfl, by omega, hclear⟩
    · obtain ⟨h1, h2, h3⟩ := ih h
      exact ⟨by omega, by omega, h3⟩

theorem Block.firstClear_eq_none {buf : Bytes} {n bi : ℕ} (h : Block.firstClear buf n bi = none)
    {k : ℕ} (hlo : bi ≤ k) (hhi : k < bi + n) : buf (k / 8) &&& bitMask k ≠ 0 := by
  induction n generalizing bi with
  | zero => omega
  | succ n ih =>
    unfold Block.firstClear at h
    split_ifs at h with hclear
    by_cases hk : k = bi
    · rwa [hk]
    · exact ih h (by omega) (by omega)

theorem bit_eq_false (hb : b < sb.size) :
    (sb.view d).bit b = false ↔ d (sb.bmapstart + b / BPB) (b % BPB / 8) &&& bitMask (b % BPB) =
      0 := by
  simp [SuperBlock.view, hb]

theorem bit_lt_size (hb : (sb.view d).bit b = true) : b < sb.size := by
  simp only [SuperBlock.view, Bool.and_eq_true, decide_eq_true_eq] at hb
  exact hb.1

theorem view_setBit (hsb : sb.Valid) (hb : b < sb.size) :
    sb.view
      (upd d (sb.bmapstart + b / BPB)
        (upd (d (sb.bmapstart + b / BPB)) (b % BPB / 8)
          (d (sb.bmapstart + b / BPB) (b % BPB / 8) ||| bitMask (b % BPB)))) =
      (sb.view d).setBit b true := by
  refine view_editBit hsb hb fun j => ?_
  rw [or_bitMask_and_bitMask_eq_zero, mod_BPB_mod]
  split_ifs with h <;> simp [h]

theorem view_clearBit (hsb : sb.Valid) (hb : b < sb.size) :
    sb.view
      (upd d (sb.bmapstart + b / BPB)
        (upd (d (sb.bmapstart + b / BPB)) (b % BPB / 8)
          (d (sb.bmapstart + b / BPB) (b % BPB / 8) &&& ~~~bitMask (b % BPB)))) =
      (sb.view d).setBit b false := by
  refine view_editBit hsb hb fun j => ?_
  rw [andNot_bitMask_and_bitMask_eq_zero, mod_BPB_mod]
  split_ifs with h <;> simp [h]

theorem Block.free_wp (hsb : sb.Valid) (hE : LogPanics E) (h : At sb v t s) (hb : v.bit b = true)
    (hQ : ∀ s', At sb (v.setBit b false) t s' → Q ⟨⟩ s') : wp (Block.free sb b) Q E s := by
  have hlt : b < sb.size := bit_lt_size (h.view ▸ hb)
  unfold Block.free
  rw [wp_bind]
  refine BCache.read_wp h fun s' hd hs' => ?_
  refine wp_ite (fun hclear => ?_) fun _ => ?_
  · rw [← bit_eq_false hlt, h.view, hb] at hclear
    cases hclear
  · rw [wp_bind]
    refine BCache.edit_wp (v.setBit b false) hs' ?_ fun s h => ?_
    · exact (view_clearBit hsb hlt).trans (by rw [hs'.view])
    · rw [wp_bind]
      exact Log.write_wp hE h fun s h => BCache.release_wp h hQ

/-- The loop of `Block::alloc`, when all blocks before the data blocks are in use. -/
theorem Block.allocIn_wp (hsb : sb.Valid) (hE : LogPanics E)
    (hreserved : ∀ b < sb.dataStart, b < sb.size → v.bit b = true)
    {Q : Except FsError ℕ → Fs → Prop} (groups : List ℕ) (h : At sb v t s)
    (hok : ∀ b s', sb.dataStart ≤ b → b < sb.size → v.bit b = false →
      At sb ((v.setBit b true).setData b fun _ => 0) t s' → Q (.ok b) s')
    (herr : ∀ s', (∀ b < sb.size, b / BPB ∈ groups → v.bit b = true) → At sb v t s' →
      Q (.error .outOfBlock) s') : wp (Block.allocIn sb groups) Q E s := by
  have hBPB : 0 < BPB := by decide
  induction groups generalizing s with
  | nil => exact herr s (by simp) h
  | cons g groups ih =>
    unfold Block.allocIn
    rw [wp_bind]
    refine BCache.read_wp h fun s' hd hs' => ?_
    cases hfind : Block.firstClear (s.disk (sb.bmapstart + g)) (min BPB (sb.size - g * BPB)) 0 with
    | some bi =>
      obtain ⟨-, hlt, hclear⟩ := Block.firstClear_eq_some hfind
      have hbi : bi < BPB := by omega
      have hsize : g * BPB + bi < sb.size := by omega
      have hdiv : (g * BPB + bi) / BPB = g := by
        rw [mul_comm, Nat.mul_add_div hBPB, Nat.div_eq_of_lt hbi, add_zero]
      have hmod : (g * BPB + bi) % BPB = bi := by
        rw [mul_comm, Nat.mul_add_mod, Nat.mod_eq_of_lt hbi]
      have hfree : v.bit (g * BPB + bi) = false := by
        rw [← h.view, bit_eq_false hsize, hdiv, hmod]
        exact hclear
      have hdata : sb.dataStart ≤ g * BPB + bi := by
        by_contra hlow
        rw [hreserved _ (by omega) hsize] at hfree
        cases hfree
      rw [wp_bind]
      refine BCache.edit_wp (v.setBit (g * BPB + bi) true) hs' ?_ fun s h => ?_
      · have := view_setBit (d := s'.disk) hsb hsize
        rwa [hdiv, hmod, hs'.view] at this
      · rw [wp_bind]
        refine Log.write_wp hE h fun s h => ?_
        rw [wp_bind]
        refine BCache.release_wp h fun s h => ?_
        rw [wp_bind]
        exact Block.zero_wp hsb hE h hdata fun s h => hok _ s hdata hsize hfree h
    | none =>
      rw [wp_bind]
      refine BCache.release_wp hs' fun s'' hs'' => ?_
      refine ih hs'' fun s3 hall h3 => herr s3 (fun b hb hmem => ?_) h3
      rcases List.mem_cons.1 hmem with hg | hmem
      · by_contra hbit
        have hbit : v.bit b = false := by simpa using hbit
        rw [← h.view, bit_eq_false hb, hg] at hbit
        have hmod : b % BPB < BPB := Nat.mod_lt _ hBPB
        have hsplit : b / BPB * BPB + b % BPB = b := Nat.div_add_mod' b BPB
        rw [hg] at hsplit
        exact Block.firstClear_eq_none hfind (Nat.zero_le _) (by omega) hbit
      · exact hall b hb hmem

/-- `Block::alloc` returns a block that was free, zeroed, unless all blocks are in use. -/
theorem Block.alloc_wp (hsb : sb.Valid) (hE : LogPanics E)
    (hreserved : ∀ b < sb.dataStart, b < sb.size → v.bit b = true)
    {Q : Except FsError ℕ → Fs → Prop} (h : At sb v t s)
    (hok : ∀ b s', sb.dataStart ≤ b → b < sb.size → v.bit b = false →
      At sb ((v.setBit b true).setData b fun _ => 0) t s' → Q (.ok b) s')
    (herr : ∀ s', (∀ b < sb.size, v.bit b = true) → At sb v t s' → Q (.error .outOfBlock) s') :
    wp (Block.alloc sb) Q E s := by
  refine Block.allocIn_wp hsb hE hreserved _ h hok fun s' hall hs' => herr s' (fun b hb => ?_) hs'
  refine hall b hb (List.mem_range.2 ?_)
  have hBPB : 0 < BPB := by decide
  rw [Nat.div_lt_iff_lt_mul hBPB]
  have := Nat.div_add_mod' (sb.size + BPB - 1) BPB
  have := Nat.mod_lt (sb.size + BPB - 1) hBPB
  omega

end Block

end Octopos
