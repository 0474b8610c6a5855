import Octopos.Fs.Consistent

/-!
# Buffers held by a call

A buffer is held from `BCACHE.read` to `BCACHE.release`, and the blocks of the open transaction are
pinned. `Holding` counts the buffers that the running function holds; every function of the file
system gives back what it takes, except that `Inode::map` keeps the buffer of an indirect block when
it finds no free block.
-/

namespace Octopos

/-- How a function of the file system runs: with a number of outstanding operations, if `clean`
holds without having lost a buffer, and with open inodes of the given types. -/
structure Mode where
  ops : ℕ
  clean : Prop
  types : ℕ → InodeType

/-- The mode in which buffers are not counted. -/
def Mode.dirty (M : Mode) : Mode := { M with clean := False }

/-- The panics that are possible: `log::write` finds the operation of the running call. -/
def Mode.Escapes (M : Mode) (e : FsPanic) : Prop := e = .outsideTrans → M.ops = 0

/-- The running function holds the buffers in `held`, and the transaction has pinned its blocks. -/
structure Holding (M : Mode) (held : ℕ → ℕ) (s : Fs) : Prop where
  ops : s.outstanding = M.ops
  nodup : s.log.Nodup
  bufs : M.clean → ∀ b, s.bufs b = held b + if b ∈ s.log then 1 else 0

section Holding

variable {M : Mode} {held : ℕ → ℕ} {s : Fs} {sb : SuperBlock} {ip : Inode} {Q : PUnit → Fs → Prop}
variable {id : Fin NINODE} {k : Fin (NDIRECT + 1)} {offset : ℕ}

theorem Holding.dirty (h : Holding M held s) (held' : ℕ → ℕ) : Holding M.dirty held' s :=
  ⟨h.ops, h.nodup, fun hfalse => hfalse.elim⟩

theorem Holding.wp {α : Type} {m : FsM α} {Q : α → Fs → Prop} {E : FsPanic → Prop}
    (hm : wp m (fun _ s' => Holding M held s') M.Escapes s)
    (h : Octopos.wp m (fun a s' => Holding M held s' → Q a s') (fun e => M.Escapes e → E e) s) :
    Octopos.wp m Q E s :=
  wp_mono (wp_and hm h) (fun _ _ ha => ha.2 ha.1) fun _ he => he.2 he.1

section Rules

variable {E : FsPanic → Prop} {b : ℕ}

theorem BCache.read_held {Q : Bytes → Fs → Prop} (h : Holding M held s)
    (hQ : ∀ c s', Holding M (upd held b (held b + 1)) s' → Q c s') : wp (BCache.read b) Q E s := by
  refine hQ _ _ ⟨h.ops, h.nodup, fun hc c => ?_⟩
  have := h.bufs hc c
  dsimp only
  by_cases hcb : c = b
  · subst hcb
    rw [upd_self, upd_self, this]
    omega
  · rw [upd_of_ne hcb, upd_of_ne hcb, this]

theorem BCache.release_held (h : Holding M (upd held b (held b + 1)) s)
    (hQ : ∀ s', Holding M held s' → Q ⟨⟩ s') : wp (BCache.release b) Q E s := by
  refine hQ _ ⟨h.ops, h.nodup, fun hc c => ?_⟩
  have := h.bufs hc c
  dsimp only
  by_cases hcb : c = b
  · subst hcb
    rw [upd_self] at this ⊢
    rw [this]
    omega
  · rw [upd_of_ne hcb] at this ⊢
    exact this

section

variable (h : Holding M held s)
include h

theorem BCache.edit_held {f : Bytes → Bytes} (hQ : ∀ s', Holding M held s' → Q ⟨⟩ s') :
    wp (BCache.edit b f) Q E s :=
  hQ _ ⟨h.ops, h.nodup, h.bufs⟩

theorem modifySlot_held {f : Slot → Slot} (hQ : ∀ s', Holding M held s' → Q ⟨⟩ s') :
    wp (modifySlot id f) Q E s :=
  hQ _ ⟨h.ops, h.nodup, h.bufs⟩

theorem modifyInner_held {f : InodeInner → InodeInner} (hQ : ∀ s', Holding M held s' → Q ⟨⟩ s') :
    wp (modifyInner id f) Q E s :=
  modifySlot_held h hQ

theorem getInner_held {Q : InodeInner → Fs → Prop} (hQ : ∀ n, Holding M held s → Q n s) :
    wp (getInner id) Q E s :=
  hQ _ h

theorem Log.write_held (hQ : ∀ s', Holding M held s' → Q ⟨⟩ s') :
    wp (Log.write sb b) Q M.Escapes s := by
  unfold Log.write
  rw [wp_bind, wp_get]
  refine wp_ite (fun _ he => by cases he) fun _ => wp_ite (fun _ he => by cases he) fun _ =>
    wp_ite (fun hno _ => ?_) fun _ => ?_
  · have := h.ops
    omega
  refine wp_ite (fun _ => hQ s h) fun hnew => hQ _ ⟨h.ops, ?_, fun hc c => ?_⟩
  · exact List.nodup_append.2 ⟨h.nodup, List.nodup_singleton b, fun c hc d hd hcd =>
      hnew (List.mem_singleton.1 hd ▸ hcd ▸ hc)⟩
  · have := h.bufs hc c
    dsimp only
    by_cases hcb : c = b
    · subst hcb
      rw [if_neg hnew] at this
      rw [upd_self, this, if_pos (by simp)]
    · rw [upd_of_ne hcb, this]
      simp [hcb]

end

end Rules

/-! ## Blocks -/

theorem Block.zero_held {b : ℕ} (h : Holding M held s) (hQ : ∀ s', Holding M held s' → Q ⟨⟩ s') :
    wp (Block.zero sb b) Q M.Escapes s := by
  unfold Block.zero
  rw [wp_bind]
  refine BCache.read_held h fun _ s h => ?_
  rw [wp_bind]
  refine BCache.edit_held h fun s h => ?_
  rw [wp_bind]
  exact Log.write_held h fun s h => BCache.release_held h hQ

theorem Block.allocIn_held {groups : List ℕ} {Q : Except FsError ℕ → Fs → Prop}
    (h : Holding M held s) (hQ : ∀ r s', Holding M held s' → Q r s') :
    wp (Block.allocIn sb groups) Q M.Escapes s := by
  induction groups generalizing s with
  | nil => exact hQ _ s h
  | cons g groups ih =>
    unfold Block.allocIn
    rw [wp_bind]
    refine BCache.read_held h fun buf s h => ?_
    cases Block.firstClear buf (min BPB (sb.size - g * BPB)) 0 with
    | some bi =>
      rw [wp_bind]
      refine BCache.edit_held h fun s h => ?_
      rw [wp_bind]
      refine Log.write_held h fun s h => ?_
      rw [wp_bind]
      refine BCache.release_held h fun s h => ?_
      rw [wp_bind]
      exact Block.zero_held h fun s h => hQ _ s h
    | none =>
      rw [wp_bind]
      exact BCache.release_held h fun s h => ih h

theorem Block.alloc_held {Q : Except FsError ℕ → Fs → Prop} (h : Holding M held s)
    (hQ : ∀ r s', Holding M held s' → Q r s') : wp (Block.alloc sb) Q M.Escapes s :=
  Block.allocIn_held h hQ

theorem Block.free_held {b : ℕ} (h : Holding M held s) (hQ : ∀ s', Holding M held s' → Q ⟨⟩ s') :
    wp (Block.free sb b) Q M.Escapes s := by
  unfold Block.free
  rw [wp_bind]
  refine BCache.read_held h fun buf s h => ?_
  refine wp_ite (fun _ he => by cases he) fun _ => ?_
  rw [wp_bind]
  refine BCache.edit_held h fun s h => ?_
  rw [wp_bind]
  exact Log.write_held h fun s h => BCache.release_held h hQ

namespace Inode

section

variable (h : Holding M held s)
include h

theorem get_held {E : FsPanic → Prop} {inum : ℕ} {Q : Except FsError Inode → Fs → Prop}
    (hQ : ∀ r s', Holding M held s' → Q r s') : wp (get inum) Q E s := by
  unfold get
  rw [wp_bind, wp_get]
  cases (List.finRange NINODE).find? fun id =>
      0 < (s.itable id).ref && (s.itable id).inum == inum with
  | some id =>
    dsimp only
    rw [wp_bind]
    exact modifySlot_held h fun s h => hQ _ s h
  | none =>
    dsimp only
    cases (List.finRange NINODE).find? fun id => (s.itable id).ref == 0 with
    | some id =>
      dsimp only
      rw [wp_bind]
      exact modifySlot_held h fun s h => hQ _ s h
    | none => exact hQ _ s h

theorem dup_held {E : FsPanic → Prop} {Q : Inode → Fs → Prop}
    (hQ : ∀ s', Holding M held s' → Q ip s') : wp (dup ip) Q E s := by
  unfold dup
  rw [wp_bind]
  exact modifySlot_held h hQ

theorem update_held (hQ : ∀ s', Holding M held s' → Q ⟨⟩ s') : wp (update sb ip) Q M.Escapes s := by
  unfold update
  rw [wp_bind]
  refine getInner_held h fun _ h => ?_
  rw [wp_bind]
  refine BCache.read_held h fun _ s h => ?_
  rw [wp_bind]
  refine BCache.edit_held h fun s h => ?_
  rw [wp_bind]
  exact Log.write_held h fun s h => BCache.release_held h hQ

theorem lock_held (hQ : ∀ s', Holding M held s' → Q ⟨⟩ s') : wp (lock sb ip) Q M.Escapes s := by
  unfold lock
  rw [wp_bind, wp_get]
  refine wp_ite (fun _ he => by cases he) fun _ => ?_
  rw [wp_bind]
  refine modifySlot_held h fun s h => wp_ite (fun _ => hQ s h) fun _ => ?_
  rw [wp_bind]
  refine BCache.read_held h fun _ s h => ?_
  rw [wp_bind]
  refine modifySlot_held h fun s h => ?_
  rw [wp_bind]
  exact BCache.release_held h fun s h => wp_ite (fun _ he => by cases he) fun _ => hQ s h

theorem freeDirect_held (hQ : ∀ s', Holding M held s' → Q ⟨⟩ s') :
    wp (freeDirect sb ip k) Q M.Escapes s := by
  unfold freeDirect
  rw [wp_bind]
  refine getInner_held h fun _ h => wp_ite (fun _ => ?_) fun _ => hQ s h
  rw [wp_bind]
  exact Block.free_held h fun s h => modifyInner_held h hQ

theorem freeListed_held {buf : Bytes} {k : ℕ} (hQ : ∀ s', Holding M held s' → Q ⟨⟩ s') :
    wp (freeListed sb buf k) Q M.Escapes s := by
  unfold freeListed
  exact wp_ite (fun _ => Block.free_held h hQ) fun _ => hQ s h

end

theorem forM_held {γ : Type} {f : γ → FsM PUnit} {l : List γ}
    (hf : ∀ a ∈ l, ∀ s, Holding M held s → wp (f a) (fun _ s' => Holding M held s') M.Escapes s)
    (h : Holding M held s) (hQ : ∀ s', Holding M held s' → Q ⟨⟩ s') :
    wp (l.forM f) Q M.Escapes s := by
  refine wp_mono (wp_forM (I := fun _ s => Holding M held s) ?_ h) (fun _ => hQ) fun _ he => he
  rintro pre a post rfl s hs
  exact hf a (by simp) s hs

theorem trunc_held (h : Holding M held s) (hQ : ∀ s', Holding M held s' → Q ⟨⟩ s') :
    wp (trunc sb ip) Q M.Escapes s := by
  have hend (s : Fs) (h : Holding M held s) : wp (do modifyInner ip.id fun n => { n with size := 0 }
                                                     update sb ip : FsM PUnit) Q M.Escapes s := by
    rw [wp_bind]
    exact modifyInner_held h fun s h => update_held h hQ
  unfold trunc
  rw [wp_bind]
  refine forM_held (fun k _ s h => freeDirect_held h fun s h => h) h fun s h => ?_
  rw [wp_bind]
  refine getInner_held h fun _ h => wp_ite (fun _ => ?_) fun _ => hend s h
  rw [wp_bind]
  refine BCache.read_held h fun _ s h => ?_
  rw [wp_bind]
  refine forM_held (fun k _ s h => freeListed_held h fun s h => h) h fun s h => ?_
  rw [wp_bind]
  refine BCache.release_held h fun s h => ?_
  rw [wp_bind]
  exact freeDirect_held h hend

theorem put_held (h : Holding M held s) (hQ : ∀ s', Holding M held s' → Q ⟨⟩ s') :
    wp (put sb ip) Q M.Escapes s := by
  unfold put
  rw [wp_bind, wp_get]
  dsimp only
  refine wp_ite (fun _ => ?_) fun _ => modifySlot_held h hQ
  refine wp_ite (fun _ he => by cases he) fun _ => ?_
  refine wp_ite (fun _ => ?_) fun _ => modifySlot_held h hQ
  rw [wp_bind]
  refine modifySlot_held h fun s h => ?_
  rw [wp_bind]
  refine trunc_held h fun s h => ?_
  rw [wp_bind]
  refine modifyInner_held h fun s h => ?_
  rw [wp_bind]
  refine update_held h fun s h => ?_
  rw [wp_bind]
  exact modifySlot_held h fun s h => modifySlot_held h hQ

theorem mapDirect_held {Q : Except FsError ℕ → Fs → Prop} (h : Holding M held s)
    (hQ : ∀ r s', Holding M held s' → Q r s') : wp (mapDirect sb ip k) Q M.Escapes s := by
  unfold mapDirect
  rw [wp_bind]
  refine getInner_held h fun _ h => wp_ite (fun _ => ?_) fun _ => hQ _ s h
  rw [wp_bind]
  refine Block.alloc_held h fun r s h => ?_
  cases r with
  | error e => exact hQ _ s h
  | ok b =>
    rw [wp_bind]
    exact modifyInner_held h fun s h => hQ _ s h

/-- `Inode::map` gives back the buffer of the indirect block if it returns a block. -/
theorem map_held {k : ℕ} {Q : Except FsError ℕ → Fs → Prop} (h : Holding M held s)
    (hok : ∀ b s', Holding M held s' → Q (.ok b) s')
    (herr : ∀ e s', Holding M.dirty held s' → Q (.error e) s') :
    wp (map sb ip k) Q M.Escapes s := by
  have hQ (r : Except FsError ℕ) (s' : Fs) (hs' : Holding M held s') : Q r s' := by
    cases r with
    | error e => exact herr e s' (hs'.dirty held)
    | ok b => exact hok b s' hs'
  unfold map
  split_ifs
  · exact mapDirect_held h hQ
  · rw [wp_bind]
    refine mapDirect_held h fun r s h => ?_
    cases r with
    | error e => exact hQ _ s h
    | ok indirect =>
      dsimp only
      rw [wp_bind]
      refine BCache.read_held h fun _ s h => wp_ite (fun _ => ?_) fun _ => ?_
      · rw [wp_bind]
        refine Block.alloc_held h fun r s h => ?_
        cases r with
        | error e => exact herr e s (h.dirty held)
        | ok b =>
          rw [wp_bind]
          refine BCache.edit_held h fun s h => ?_
          rw [wp_bind]
          refine Log.write_held h fun s h => ?_
          rw [wp_bind]
          exact BCache.release_held h fun s h => hok _ s h
      · rw [wp_bind]
        exact BCache.release_held h fun s h => hok _ s h
  · exact hQ _ s h

theorem readLoop_held {dst : Dst} {fuel rest total : ℕ} {out : Bytes}
    {Q : Except FsError (ℕ × Bytes) → Fs → Prop} (h : Holding M held s)
    (hok : ∀ n out s', Holding M.dirty held s' → (n = total + rest → Holding M held s') →
      Q (.ok (n, out)) s') (herr : ∀ e s', Holding M held s' → Q (.error e) s') :
    wp (readLoop sb ip dst fuel offset rest total out) Q M.Escapes s := by
  induction fuel generalizing offset rest total out s with
  | zero => exact fun he => by cases he
  | succ fuel ih =>
    unfold readLoop
    refine wp_ite (fun _ => hok _ _ s (h.dirty held) fun _ => h) fun hrest => ?_
    rw [wp_bind]
    refine map_held h (fun addr s h => ?_) fun e s h => hok _ _ s h fun hn => by omega
    dsimp only
    rw [wp_bind]
    refine BCache.read_held h fun buf s h => ?_
    refine wp_ite (fun _ => ?_) fun _ => ?_
    · rw [wp_bind]
      refine BCache.release_held h fun s h => ih h fun n out s' hd hn => hok n out s' hd fun heq => ?_
      exact hn (by omega)
    · rw [wp_bind]
      exact BCache.release_held h fun s h => herr _ s h

theorem read_held {dst : Dst} {len : ℕ} {Q : Except FsError (ℕ × Bytes) → Fs → Prop}
    (h : Holding M held s)
    (hok : ∀ n out s', Holding M.dirty held s' →
      (n = min (len % 2 ^ 32) ((s.itable ip.id).inner.size.toNat - offset) → Holding M held s') →
      Q (.ok (n, out)) s') (herr : ∀ e s', Holding M held s' → Q (.error e) s') :
    wp (read sb ip offset len dst) Q M.Escapes s := by
  unfold read getInner
  rw [wp_bind, wp_bind, wp_get, wp_pure]
  dsimp only
  refine wp_ite (fun _ => herr _ s h) fun hin => ?_
  refine readLoop_held h (fun n out s' hd hn => hok n out s' hd fun heq => hn ?_) herr
  rw [heq]
  split_ifs <;> omega

end Inode

section Write

variable {v v' : View} {t t' : Fin NINODE → Slot} {T F : Finset ℕ}

theorem Wrote.missing_add (h : Wrote sb ip F v t v' t') (hF : F ⊆ T) :
    missing v' t' ip T + F.card ≤ missing v t ip T := by
  unfold missing
  rw [← Finset.card_union_of_disjoint]
  · refine Finset.card_le_card fun p hp => Finset.mem_filter.2 ?_
    rcases Finset.mem_union.1 hp with hp | hp
    · obtain ⟨hpT, hp0⟩ := Finset.mem_filter.1 hp
      have hpF : p ∉ F := fun hpF => (h.filled p hpF).2 hp0
      exact ⟨hpT, (h.keep (ip.inum, p) (Or.inr hpF)).symm.trans hp0⟩
    · exact ⟨hF hp, (h.filled p hp).1⟩
  · refine Finset.disjoint_left.2 fun p hp hpF => (h.filled p hpF).2 (Finset.mem_filter.1 hp).2

/-- The loop of `Inode::write` gives back all buffers if there are enough free blocks. -/
theorem Inode.writeLoop_held (hsb : sb.Valid) {src : Src} {fuel rest total : ℕ}
    (hown : Own sb (cur v t ip) v.bit v.data) (hmax : offset + rest ≤ MAXFILE * BSIZE)
    (hT : ∀ k, offset / BSIZE ≤ k → k * BSIZE < offset + rest → placeOf k ∈ T ∧
      (NDIRECT ≤ k → NDIRECT ∈ T)) (hroom : M.clean → missing v t ip T ≤ freeBlocks sb v.bit)
    (h : At sb v t s) (hh : Holding M held s) :
    wp (writeLoop sb ip src fuel offset rest total) (fun _ s' => Holding M held s') M.Escapes
      s := by
  induction fuel generalizing offset rest total v t s with
  | zero => exact fun he => by cases he
  | succ fuel ih =>
    unfold writeLoop
    refine wp_ite (fun _ => hh) fun hrest => ?_
    obtain ⟨hm0, hmr, hmB, hlo, hhi, hnext⟩ := div_BSIZE_step offset rfl hrest
    generalize hm : min rest (BSIZE - offset % BSIZE) = m at *
    obtain ⟨hk, hkT⟩ := hT (offset / BSIZE) le_rfl (by omega)
    have hmap : wp (map sb ip (offset / BSIZE)) (onResult (fun b s' =>
        b ≠ 0 ∧ ∃ F ⊆ T, ∃ v' t', Grown sb ip F v t v' t' ∧ At sb v' t' s' ∧
          places (cur v' t' ip) v'.data (ip.inum, placeOf (offset / BSIZE)) = b) fun _ _ => ¬M.clean)
        (fun _ => True) s := by
      refine Inode.map_wp hsb ⟨trivial, trivial, trivial⟩ hown ?_ h ?_ ?_
      · rw [Nat.div_lt_iff_lt_mul (by decide)]
        omega
      · intro b F v' t' s' hF hgrown hs' hb hpl
        refine ⟨hb, F, fun p hp => ?_, v', t', hgrown, hs', hpl⟩
        rcases hF p hp with rfl | ⟨rfl, hle⟩
        · exact hk
        · exact hkT hle
      · intro e F v' t' s' hF hgrown hs' hall hzero hclean
        have hFT : F ⊆ T := fun p hp => by
          obtain ⟨rfl, hle⟩ := hF p hp
          exact hkT hle
        have hpos : 0 < missing v' t' ip T := by
          refine Finset.card_pos.2 ?_
          rcases hzero with hzero | ⟨hle, hzero⟩
          · exact ⟨_, Finset.mem_filter.2 ⟨hk, hzero⟩⟩
          · exact ⟨_, Finset.mem_filter.2 ⟨hkT hle, hzero⟩⟩
        have hnone : freeBlocks sb v'.bit = 0 := by
          rw [freeBlocks, Finset.card_eq_zero, Finset.filter_eq_empty_iff]
          intro b hb
          simp [hall b (Finset.mem_range.1 hb)]
        have := hgrown.missing_add hFT
        have := hgrown.cost
        have := hroom hclean
        omega
    have hheld : wp (map sb ip (offset / BSIZE)) (fun r s' => (∀ b, r = .ok b → Holding M held s') ∧
        Holding M.dirty held s') M.Escapes s :=
      map_held hh (fun b s' hs' => ⟨fun _ _ => hs', hs'.dirty held⟩)
        fun e s' hs' => ⟨fun b hb => (by cases hb), hs'⟩
    rw [wp_bind]
    refine wp_both hmap hheld ?_ fun _ _ he => he
    rintro (e | b) s1 hgrown ⟨hh1, hdirty⟩
    · exact ⟨hdirty.ops, hdirty.nodup, fun hc => absurd hc hgrown⟩
    obtain ⟨hb0, F, hFT, v1, t1, hgrown, h₁, hpl⟩ := hgrown
    replace hh1 := hh1 b rfl
    have hdata := (hgrown.own.owned.range _ (hpl.symm ▸ hb0)).1
    rw [hpl] at hdata
    obtain ⟨hw, -⟩ := Wrote.copy hgrown.own hpl hb0 (f := fun i => src.data (total + i)) hmB
    -- the copy of a full block, and the rest of the loop
    have hrec (s2 : Fs) (h₂ : At sb v1 t1 s2) (hh2 : Holding M (upd held b (held b + 1)) s2) :
        wp (do BCache.edit b fun c => blit c (offset % BSIZE) m fun i => src.data (total + i)
               Log.write sb b
               BCache.release b
               writeLoop sb ip src fuel (offset + m) (rest - m) (total + m) : FsM ℕ)
          (fun _ s' => Holding M held s') M.Escapes s2 := by
      set v2 := v1.setData b (blit (v1.data b) (offset % BSIZE) m fun i => src.data (total + i))
      rw [wp_bind]
      refine wp_both (BCache.editData_wp (Q := fun _ s' => At sb v2 t1 s') (E := M.Escapes) hsb h₂
        hdata fun _ h => h) (BCache.edit_held (E := M.Escapes) (Q := fun _ s' => Holding M _ s') hh2
        fun _ h => h) (fun _ s3 h₃ hh3 => ?_) fun _ _ he => he
      rw [wp_bind]
      refine wp_both (Log.write_wp (Q := fun _ s' => At sb v2 t1 s') ⟨trivial, trivial, trivial⟩ h₃ fun _ h => h)
        (Log.write_held (Q := fun _ s' => Holding M _ s') hh3 fun _ h => h)
        (fun _ s4 h₄ hh4 => ?_) fun _ (_ : True) he => he
      rw [wp_bind]
      refine wp_both (BCache.release_wp (Q := fun _ s' => At sb v2 t1 s') (E := M.Escapes) h₄
        fun _ h => h) (BCache.release_held (E := M.Escapes) (Q := fun _ s' => Holding M held s') hh4
        fun _ h => h) (fun _ s5 h5 hh5 => ?_) fun _ _ he => he
      refine ih hw.own (by omega) (fun k hk hk' => ?_) (fun hc => ?_) h5 hh5
      · exact hT k (le_trans (Nat.div_le_div_right (Nat.le_add_right _ _)) hk) (by omega)
      · have h1 := hgrown.missing_add hFT
        have h2 := hgrown.cost
        have h3 := hw.missing_add (Finset.empty_subset T)
        have h4 := hw.cost
        have := hroom hc
        rw [Finset.card_empty] at h3 h4
        omega
    dsimp only
    rw [wp_bind]
    refine wp_both (BCache.readData_wp (Q := fun _ s' => At sb v1 t1 s') (E := M.Escapes) h₁ hdata
      fun _ h => h) (BCache.read_held (E := M.Escapes)
      (Q := fun _ s' => Holding M (upd held b (held b + 1)) s') hh1 fun _ _ h => h)
      (fun _ s2 h₂ hh2 => ?_) fun _ _ he => he
    cases src.user with
    | some accessible =>
      refine wp_ite (fun _ => hrec s2 h₂ hh2) fun _ => ?_
      rw [wp_bind]
      refine BCache.edit_held hh2 fun s hh => ?_
      rw [wp_bind]
      exact BCache.release_held hh fun s hh => hh
    | none => exact wp_ite (fun _ he => by cases he) fun _ => hrec s2 h₂ hh2

theorem Inode.write_held (hsb : sb.Valid) (hd : DiskOk sb v) (hs : Synced v t ip) {src : Src}
    (hlen : src.length < 2 ^ 32)
    (hT : offset + src.length ≤ MAXFILE * BSIZE → ∀ k, offset / BSIZE ≤ k →
      k * BSIZE < offset + src.length → placeOf k ∈ T ∧ (NDIRECT ≤ k → NDIRECT ∈ T))
    (hroom : M.clean → missing v t ip T ≤ freeBlocks sb v.bit) (h : At sb v t s)
    (hh : Holding M held s) :
    wp (write sb ip offset src) (fun _ s' => Holding M held s') M.Escapes s := by
  unfold write
  rw [wp_bind]
  refine getInner_wp h ?_
  simp only [Nat.mod_eq_of_lt hlen]
  refine wp_ite (fun _ => hh) fun _ => wp_ite (fun _ => hh) fun hmax => ?_
  rw [wp_bind]
  refine wp_mono (Inode.writeLoop_held hsb (hd.own_cur hs) (by omega) (hT (by omega)) hroom h hh)
    (fun reached s1 h1 => ?_) fun _ he => he
  refine wp_ite (fun _ => ?_) fun _ => ?_
  · rw [wp_bind]
    refine modifyInner_held h1 fun s2 h2 => ?_
    rw [wp_bind]
    exact Inode.update_held h2 fun s3 h3 => h3
  · rw [wp_bind]
    exact Inode.update_held h1 fun s3 h3 => h3

end Write

end Holding

end Octopos
