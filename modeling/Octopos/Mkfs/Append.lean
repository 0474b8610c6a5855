import Octopos.Mkfs.Format

/-!
# What `append_inode` does

The image under construction has a meaning as the kernel would see it, except that the bitmap is not
written yet: the blocks in use are those that the counter has passed (`ImageAt`). The addresses that
`mkfs` fills are then new places of the inode and `append_inode` extends the contents of one inode
(`Mkfs.appendInode_wp`).
-/

namespace Octopos

/-- Number of blocks of a file of `n` bytes, with its indirect block. -/
def blocksOf (n : ℕ) : ℕ := (n + (BSIZE - 1)) / BSIZE + if NDIRECT * BSIZE < n then 1 else 0

/-- A superblock for an image that is laid out as `mkfs` does, whatever number of inodes and blocks
it counts. -/
structure MkfsLayout (sb : SuperBlock) : Prop where
  valid : sb.Valid
  inodestart : sb.inodestart = 2 + NLOG
  bmapstart : sb.bmapstart = 2 + NLOG + NINODEBLOCKS
  dataStart : sb.dataStart = NMETA
  size_le : sb.size ≤ BPB
  ninodes_le : sb.ninodes ≤ NINODEBLOCKS * IPB

/-- To a kernel with superblock `sb` the image means `v` when the first `fb` blocks are in use;
inodes from `fi` on are not. -/
structure ImageAt (sb : SuperBlock) (v : View) (fb fi : ℕ) (st : Mkfs.State) : Prop where
  layout : MkfsLayout sb
  super : st.sector 1 = blit (fun _ => 0) 0 32 Mkfs.superBlock.bytes
  log : ∀ b < 2 + NLOG, b ≠ 1 → st.sector b = fun _ => 0
  node : (sb.view st.sector).node = v.node
  data : (sb.view st.sector).data = v.data
  freeBlock : st.freeBlock = fb
  freeInode : st.freeInode = fi
  low : NMETA ≤ fb
  bit : v.bit = fun b => decide (b < fb)
  zero : ∀ b, fb ≤ b → b < sb.size → v.data b = fun _ => 0

theorem mkfsSuper_dataStart : mkfsSuper.dataStart = NMETA := by decide

theorem mkfsSuper_layout : MkfsLayout mkfsSuper :=
  ⟨mkfsSuper_valid, rfl, rfl, mkfsSuper_dataStart, by decide, by decide⟩

theorem MkfsLayout.inodeBlock {sb : SuperBlock} (h : MkfsLayout sb) (i : ℕ) :
    Mkfs.inodeBlockNum i = sb.inodeBlock i := by
  unfold Mkfs.inodeBlockNum SuperBlock.inodeBlock
  rw [h.inodestart]

namespace Mkfs

/-- A program that allocates `k` inodes; the counter of blocks does not fall. -/
def Allocates {α : Type} (k : ℕ) (m : MkfsM α) : Prop :=
  ∀ st, wp m (fun _ st' => st.freeBlock ≤ st'.freeBlock ∧ st'.freeInode = st.freeInode + k)
    (fun _ => True) st

section Allocates

variable {α β : Type} {j k : ℕ}

theorem allocates_pure (a : α) : Allocates 0 (pure a) := fun _ => wp_pure.2 ⟨le_rfl, rfl⟩

theorem allocates_throw (e : Panic) : Allocates k (throw e : MkfsM α) := fun _ => trivial

theorem Allocates.bind {m : MkfsM α} {f : α → MkfsM β} (hm : Allocates j m)
    (hf : ∀ a, Allocates k (f a)) : Allocates (j + k) (m >>= f) := by
  intro st
  rw [wp_bind]
  refine wp_mono (hm st) (fun a st1 h1 => ?_) fun _ h => h
  refine wp_mono (hf a st1) (fun _ st2 h2 => ?_) fun _ h => h
  exact ⟨h1.1.trans h2.1, by omega⟩

theorem Allocates.bind_zero {m : MkfsM α} {f : α → MkfsM β} (hm : Allocates 0 m)
    (hf : ∀ a, Allocates k (f a)) : Allocates k (m >>= f) := by
  have h := hm.bind hf
  rwa [zero_add] at h

theorem Allocates.ite {p : Prop} [Decidable p] {m m' : MkfsM α} (hm : p → Allocates k m)
    (hm' : ¬p → Allocates k m') : Allocates k (if p then m else m') := fun st =>
  wp_ite (fun hp => hm hp st) fun hp => hm' hp st

theorem allocates_get : Allocates 0 (get : MkfsM State) := fun _ => wp_get.2 ⟨le_rfl, rfl⟩

theorem allocates_readSector (b : ℕ) : Allocates 0 (readSector b) := fun _ => ⟨le_rfl, rfl⟩

theorem allocates_writeSector (b : ℕ) (c : Bytes) : Allocates 0 (writeSector b c) :=
  fun _ => ⟨le_rfl, rfl⟩

theorem allocates_readInode (i : ℕ) : Allocates 0 (readInode i) := fun _ => ⟨le_rfl, rfl⟩

theorem allocates_writeInode (i : ℕ) (din : DiskInode) : Allocates 0 (writeInode i din) := fun _ =>
  ⟨le_rfl, rfl⟩

theorem allocates_takeBlock : Allocates 0 takeBlock := fun _ => ⟨Nat.le_succ _, rfl⟩

theorem allocates_allocateInode (type : UInt16) : Allocates 1 (allocateInode type) := fun _ =>
  ⟨le_rfl, rfl⟩

theorem allocates_fillAddr (din : DiskInode) (k : Fin (NDIRECT + 1)) :
    Allocates 0 (fillAddr din k) :=
  .ite (fun _ => allocates_takeBlock.bind_zero fun _ => allocates_pure _) fun _ => allocates_pure _

theorem allocates_sectorOf (din : DiskInode) (fbn : ℕ) : Allocates 0 (sectorOf din fbn) := by
  unfold sectorOf
  split_ifs with hdirect
  · exact (allocates_fillAddr _ _).bind_zero fun _ => allocates_pure _
  · refine (allocates_fillAddr _ _).bind_zero fun din => (allocates_readSector _).bind_zero fun indirect => ?_
    refine .ite (fun _ => ?_) fun _ => allocates_pure _
    exact allocates_takeBlock.bind_zero fun b => (allocates_writeSector _ _).bind_zero fun _ => allocates_pure _

theorem allocates_appendLoop (fuel : ℕ) (din : DiskInode) (offset : ℕ) (data : List UInt8) :
    Allocates 0 (appendLoop fuel din offset data) := by
  induction fuel generalizing din offset data with
  | zero => exact allocates_throw _
  | succ fuel ih =>
    unfold appendLoop
    refine .ite (fun _ => allocates_pure _) fun _ => .ite (fun _ => allocates_throw _) fun _ => ?_
    refine (allocates_sectorOf _ _).bind_zero fun ⟨din, x⟩ => (allocates_readSector _).bind_zero fun buf => ?_
    exact (allocates_writeSector _ _).bind_zero fun _ => ih _ _ _

theorem allocates_appendInode (i : ℕ) (data : List UInt8) : Allocates 0 (appendInode i data) :=
  (allocates_readInode i).bind_zero fun din => (allocates_appendLoop _ din _ data).bind_zero fun ⟨_, _⟩ =>
    allocates_writeInode _ _

/-- When blocks behind the end are handed out, it does not matter what happens. -/
def RunsOut (sb : Octopos.SuperBlock) (Q : α → State → Prop) (E : Panic → Prop) : Prop :=
  (∀ e, E e) ∧ ∀ a st, sb.size < st.freeBlock → Q a st

theorem RunsOut.bind {sb : Octopos.SuperBlock} {Q : β → State → Prop} {E : Panic → Prop}
    {f : α → MkfsM β} (h : RunsOut sb Q E) (hf : ∀ a, Allocates k (f a)) :
    RunsOut sb (fun a => wp (f a) Q E) E := by
  refine ⟨h.1, fun a st hlt => ?_⟩
  exact wp_mono (hf a st) (fun b st' h' => h.2 b st' (hlt.trans_le h'.1)) fun e _ => h.1 e

end Allocates

end Mkfs

section Sectors

variable {sb : Octopos.SuperBlock} {v : View} {fb fi : ℕ} {st : Mkfs.State} {E : Mkfs.Panic → Prop}

theorem ImageAt.sector_eq (h : ImageAt sb v fb fi st) {b : ℕ} (hb : NMETA ≤ b) :
    st.sector b = v.data b := by
  rw [← h.data]
  exact (if_pos (h.layout.dataStart.symm ▸ hb)).symm

theorem Mkfs.readSector_wp {b : ℕ} {Q : Bytes → Mkfs.State → Prop} (hQ : Q (st.sector b) st) :
    wp (Mkfs.readSector b) Q E st := hQ

theorem Mkfs.readData_wp {b : ℕ} {Q : Bytes → Mkfs.State → Prop} (h : ImageAt sb v fb fi st)
    (hb : NMETA ≤ b) (hQ : Q (v.data b) st) : wp (Mkfs.readSector b) Q E st := by
  refine Mkfs.readSector_wp ?_
  rwa [h.sector_eq hb]

theorem Mkfs.writeData_wp {b : ℕ} {c : Bytes} {Q : PUnit → Mkfs.State → Prop}
    (h : ImageAt sb v fb fi st) (hb : NMETA ≤ b) (hlt : b < fb)
    (hQ : ∀ st', ImageAt sb (v.setData b c) fb fi st' → Q ⟨⟩ st') :
    wp (Mkfs.writeSector b c) Q E st := by
  have hview : sb.view (upd st.sector b c) = (sb.view st.sector).setData b c :=
    view_setData h.layout.valid (by rwa [h.layout.dataStart]) c
  have hN : NMETA = 47 := rfl
  have hL : 2 + NLOG = 33 := rfl
  refine hQ { st with sector := upd st.sector b c }
    { h with super := ?_, log := fun b' hb' h1 => ?_, node := ?_, data := ?_, zero := ?_ }
  · rw [← h.super]
    exact upd_of_ne (by omega)
  · rw [← h.log b' hb' h1]
    exact upd_of_ne (by omega)
  · change (sb.view (upd st.sector b c)).node = _
    rw [hview]
    exact h.node
  · change (sb.view (upd st.sector b c)).data = _
    rw [hview, View.setData_data, h.data]
    rfl
  · intro b' hb' hlt'
    rw [View.setData_data, upd_of_ne (by omega)]
    exact h.zero b' hb' hlt'

theorem Mkfs.takeBlock_wp {Q : ℕ → Mkfs.State → Prop} (h : ImageAt sb v fb fi st)
    (hfb : fb < sb.size ∨ fb ≤ sb.size ∧ RunsOut sb Q E)
    (hQ : fb < sb.size → ∀ st',
      ImageAt sb ((v.setBit fb true).setData fb fun _ => 0) (fb + 1) fi st' → Q fb st') :
    wp Mkfs.takeBlock Q E st := by
  by_cases hlt : fb < sb.size
  swap
  · refine (hfb.resolve_left hlt).2.2 _ _ ?_
    change sb.size < st.freeBlock + 1
    rw [h.freeBlock]
    omega
  have hdata : upd v.data fb (fun _ => 0) = v.data := by
    rw [← h.zero fb le_rfl hlt]
    exact upd_eq_self ..
  have hlow := h.low
  unfold Mkfs.takeBlock
  rw [wp_bind, wp_get, wp_bind, wp_set, wp_pure, h.freeBlock]
  refine hQ hlt _ ⟨h.layout, h.super, h.log, h.node, ?_, rfl, h.freeInode, by omega, ?_, fun b hb hlt' => ?_⟩
  · rw [View.setData_data, View.setBit_data, hdata]
    exact h.data
  · rw [View.setData_bit, View.setBit_bit, h.bit]
    funext b
    by_cases hb : b = fb
    · rw [hb, upd_self, decide_eq_true (Nat.lt_succ_self _)]
    · rw [upd_of_ne hb]
      exact decide_eq_decide.2 (by omega)
  · rw [View.setData_data, View.setBit_data, hdata]
    exact h.zero b (by omega) hlt'

theorem Mkfs.readInode_wp {i : ℕ} (hi : i < sb.ninodes) {Q : Mkfs.DiskInode → Mkfs.State → Prop}
    (h : ImageAt sb v fb fi st) (hQ : ∀ din : Mkfs.DiskInode, din.toInner = v.node i → Q din st) :
    wp (Mkfs.readInode i) Q E st := by
  refine hQ _ ?_
  rw [Mkfs.DiskInode.toInner_fromBytes, ← h.node, h.layout.inodeBlock]
  exact (if_pos hi).symm

theorem Mkfs.writeInode_wp {i : ℕ} (hi : i < sb.ninodes) (din : Mkfs.DiskInode)
    {Q : PUnit → Mkfs.State → Prop} (h : ImageAt sb v fb fi st)
    (hQ : ∀ st', ImageAt sb (v.setNode i din.toInner) fb fi st' → Q ⟨⟩ st') :
    wp (Mkfs.writeInode i din) Q E st := by
  have hview := view_editInode h.layout.valid (d := st.sector) hi
    (c := blit (st.sector (sb.inodeBlock i)) (inodeOffset i) DINODESIZE din.bytes)
    fun j hj => blit_outside hj
  rw [din.load_bytes] at hview
  have hlow : 2 + NLOG ≤ sb.inodeBlock i := by
    rw [← h.layout.inodeBlock]
    exact Nat.le_add_right ..
  unfold Mkfs.writeInode
  rw [wp_bind, h.layout.inodeBlock]
  refine hQ ⟨upd st.sector (sb.inodeBlock i) (blit (st.sector (sb.inodeBlock i))
    (inodeOffset i) DINODESIZE din.bytes), st.freeBlock, st.freeInode⟩
    { h with super := ?_, log := fun b hb h1 => ?_, node := ?_, data := ?_ }
  · rw [← h.super]
    exact upd_of_ne (Nat.lt_of_lt_of_le (by decide) hlow).ne
  · rw [← h.log b hb h1]
    exact upd_of_ne (Nat.lt_of_lt_of_le hb hlow).ne
  · change (sb.view (upd st.sector _ _)).node = _
    rw [hview, View.setNode_node, h.node]
    rfl
  · change (sb.view (upd st.sector _ _)).data = _
    rw [hview]
    exact h.data

end Sectors

section Append

variable {sb : Octopos.SuperBlock} {v : View} {t : Fin NINODE → Slot} {ip : Inode} {fb fi : ℕ} {st : Mkfs.State}
  {E : Mkfs.Panic → Prop} {din : Mkfs.DiskInode} {i offset m : ℕ} {data : List UInt8}
variable {Q : Mkfs.DiskInode × ℕ → Mkfs.State → Prop} {place : ℕ × ℕ → ℕ} {type : InodeType}

theorem ImageAt.bit_free (h : ImageAt sb v fb fi st) : v.bit fb = false := by
  rw [h.bit]
  exact decide_eq_false (lt_irrefl _)

theorem ImageAt.place_lt (h : ImageAt sb v fb fi st) {node : ℕ → InodeInner}
    (hown : Own sb node v.bit v.data) {x : ℕ × ℕ} (hx : places node v.data x ≠ 0) :
    NMETA ≤ places node v.data x ∧ places node v.data x < fb := by
  have hused := hown.owned.used x hx
  rw [h.bit, decide_eq_true_eq] at hused
  exact ⟨h.layout.dataStart ▸ (hown.owned.range x hx).1, hused⟩

theorem Mkfs.fillAddr_wp (hown : Own sb (cur v t ip) v.bit v.data)
    (ht : (t ip.id).inner = din.toInner) (k : Fin (NDIRECT + 1))
    {need : ℕ} (hneed : need = if places (cur v t ip) v.data (ip.inum, k.val) = 0 then 1 else 0)
    {Q : Mkfs.DiskInode → Mkfs.State → Prop}
    (hfb : fb + need ≤ sb.size ∨ fb ≤ sb.size ∧ Mkfs.RunsOut sb Q E) (h : ImageAt sb v fb fi st)
    (hQ : ∀ F v' t' st' (din' : Mkfs.DiskInode), F ⊆ {k.val} → Grown sb ip F v t v' t' →
      (t' ip.id).inner = din'.toInner → places (cur v' t' ip) v'.data (ip.inum, k.val) ≠ 0 →
      fb + need ≤ sb.size → ImageAt sb v' (fb + need) fi st' → Q din' st') :
    wp (Mkfs.fillAddr din k) Q E st := by
  have hplace : places (cur v t ip) v.data (ip.inum, k.val) = (din.addrs k).toNat := by
    rw [places_addr, cur_inum, ht]
    rfl
  unfold Mkfs.fillAddr
  refine wp_ite (fun hk => ?_) fun hk => ?_
  · have h0 : places (cur v t ip) v.data (ip.inum, k.val) = 0 := by
      rw [hplace, hk]
      rfl
    rw [if_pos h0] at hneed
    subst hneed
    rw [wp_bind]
    refine Mkfs.takeBlock_wp h (hfb.imp_right fun ho => ⟨ho.1, ho.2.bind fun _ => Mkfs.allocates_pure _⟩)
      fun hlt st' h' => ?_
    have hlow := h.low
    have hgrown := Grown.setAddr h.layout.valid hown k (by rw [ht]; exact hk)
      (by rwa [h.layout.dataStart]) (by omega) h.bit_free
    refine hQ _ _ _ st' _ subset_rfl hgrown ?_ (hgrown.filled k.val (by simp)).2 hlt h'
    rw [setAddrs_inner, ht]
    rfl
  · have h0 : places (cur v t ip) v.data (ip.inum, k.val) ≠ 0 := by
      rw [hplace]
      exact toNat_ne_zero hk
    rw [if_neg h0] at hneed
    subst hneed
    exact hQ ∅ v t st din (Finset.empty_subset _) (Grown.refl hown) ht h0 (hfb.elim id And.left) h

/-- The sector of a block of the inode, and the number of blocks that were taken for it. -/
theorem Mkfs.sectorOf_wp (hown : Own sb (cur v t ip) v.bit v.data)
    (ht : (t ip.id).inner = din.toInner) {fbn need : ℕ} (hfbn : fbn < MAXFILE)
    (hneed : need =
      (if NDIRECT ≤ fbn ∧ places (cur v t ip) v.data (ip.inum, NDIRECT) = 0 then 1 else 0) +
        if places (cur v t ip) v.data (ip.inum, placeOf fbn) = 0 then 1 else 0)
    (hfb : fb + need ≤ sb.size ∨ fb ≤ sb.size ∧ Mkfs.RunsOut sb Q E) (h : ImageAt sb v fb fi st)
    (hQ : ∀ F v' t' st' (din' : Mkfs.DiskInode) x,
      (∀ p ∈ F, p = placeOf fbn ∨ p = NDIRECT ∧ NDIRECT ≤ fbn) → Grown sb ip F v t v' t' →
      (t' ip.id).inner = din'.toInner → places (cur v' t' ip) v'.data (ip.inum, placeOf fbn) = x →
      x ≠ 0 → (NDIRECT ≤ fbn → places (cur v' t' ip) v'.data (ip.inum, NDIRECT) ≠ 0) →
      fb + need ≤ sb.size → ImageAt sb v' (fb + need) fi st' → Q (din', x) st') :
    wp (Mkfs.sectorOf din fbn) Q E st := by
  have hM : MAXFILE = NDIRECT + NINDIRECT := rfl
  unfold Mkfs.sectorOf
  split_ifs with hdirect
  · have hpk : placeOf fbn = fbn := if_pos hdirect
    rw [if_neg (by omega), zero_add, hpk] at hneed
    rw [wp_bind]
    refine Mkfs.fillAddr_wp hown ht ⟨fbn, by omega⟩ hneed
      (hfb.imp_right fun ho => ⟨ho.1, ho.2.bind fun _ => Mkfs.allocates_pure _⟩) h ?_
    intro F v' t' st' din' hF hgrown ht' hne hle h'
    refine hQ F v' t' st' din' _ (fun p hp => Or.inl ?_) hgrown ht' ?_ ?_ (by omega) hle h'
    · rw [hpk]
      exact Finset.mem_singleton.1 (hF hp)
    · rw [hpk, places_addr (cur v' t' ip) v'.data ip.inum ⟨fbn, by omega⟩, cur_inum, ht']
      rfl
    · rwa [places_addr (cur v' t' ip) v'.data ip.inum ⟨fbn, by omega⟩, cur_inum, ht'] at hne
  · have hle : NDIRECT ≤ fbn := by omega
    have hpk : placeOf fbn = NDIRECT + 1 + (fbn - NDIRECT) := by
      rw [placeOf, if_neg hdirect]
      omega
    simp only [hle, true_and] at hneed
    generalize hneed1 : (if places (cur v t ip) v.data (ip.inum, NDIRECT) = 0 then 1 else 0) = need1 at hneed
    rw [wp_bind]
    refine Mkfs.fillAddr_wp hown ht (Fin.last NDIRECT) hneed1.symm (hfb.imp (by omega) fun ho => ⟨ho.1,
      ho.2.bind fun _ => (Mkfs.allocates_readSector _).bind_zero fun _ => .ite (fun _ =>
        Mkfs.allocates_takeBlock.bind_zero fun _ => (Mkfs.allocates_writeSector _ _).bind_zero fun _ =>
          Mkfs.allocates_pure _) fun _ => Mkfs.allocates_pure _⟩) h ?_
    rw [Fin.val_last]
    intro F v1 t1 st1 din1 hF hgrown ht1 hne hle1 h1
    have hF' : ∀ p ∈ F, p = NDIRECT := fun p hp => Finset.mem_singleton.1 (hF hp)
    have hlast : places (cur v1 t1 ip) v1.data (ip.inum, NDIRECT) = (din1.addrs (Fin.last NDIRECT)).toNat := by
      rw [places_indirect, cur_inum, ht1]
      rfl
    have hind := h1.place_lt hgrown.own hne
    rw [hlast] at hind hne
    have hne' : (cur v1 t1 ip ip.inum).addrs (Fin.last NDIRECT) ≠ 0 := by
      rw [cur_inum, ht1]
      exact ne_zero_of_toNat hne
    have hlisted : places (cur v1 t1 ip) v1.data (ip.inum, placeOf fbn) =
        (get32 (v1.data (din1.addrs (Fin.last NDIRECT)).toNat) (4 * (fbn - NDIRECT))).toNat := by
      rw [places_mk, hpk, InodeInner.ptr_listed _ (by omega) hne', cur_inum, ht1]
      rfl
    have hkeep : places (cur v1 t1 ip) v1.data (ip.inum, placeOf fbn) =
        places (cur v t ip) v.data (ip.inum, placeOf fbn) :=
      hgrown.keep _ (Or.inr fun hmem => placeOf_ne fbn (hF' _ hmem))
    rw [wp_bind]
    refine Mkfs.readData_wp h1 hind.1 (wp_ite (fun h0 => ?_) fun h0 => ?_)
    · have hzero : places (cur v t ip) v.data (ip.inum, placeOf fbn) = 0 := by
        rw [← hkeep, hlisted, h0]
        rfl
      rw [if_pos hzero] at hneed
      generalize hfb1 : fb + need1 = fb1 at *
      rw [wp_bind]
      refine Mkfs.takeBlock_wp h1 (hfb.imp (by omega) fun ho => ⟨hle1, ho.2.bind fun b =>
        (Mkfs.allocates_writeSector _ _).bind_zero fun _ => Mkfs.allocates_pure _⟩) fun hlt st2 h2 => ?_
      have hlow := h1.low
      have hgrown' := Grown.setListed h.layout.valid hgrown.own (k := fbn - NDIRECT) (by omega)
        (show _ = ((t1 ip.id).inner.addrs (Fin.last NDIRECT)).toNat by rw [ht1]; rfl) hne h0
        (by rwa [h.layout.dataStart]) (by omega) h1.bit_free
      rw [wp_bind]
      refine Mkfs.writeData_wp h2 hind.1 (by omega) fun st3 h3 => ?_
      have hfb32 : (UInt32.ofNat fb1).toNat = fb1 :=
        toNat_ofNat_of_lt (n := sb.size) h.layout.valid.size_lt.le (by omega)
      have hneed' : fb + need = fb1 + 1 := by omega
      refine hQ _ _ _ st3 din1 _ (fun p hp => ?_) (hgrown.trans hgrown') ht1 ?_ ?_ (fun _ => ?_)
        (hneed' ▸ hlt) (hneed' ▸ h3)
      · rcases Finset.mem_union.1 hp with hp | hp
        · exact Or.inr ⟨hF' p hp, hle⟩
        · exact Or.inl ((Finset.mem_singleton.1 hp).trans hpk.symm)
      · change (cur v1 t1 ip ip.inum).ptr _ _ = _
        rw [hpk, InodeInner.ptr_listed _ (by omega) hne', cur_inum, ht1, View.setData_data]
        change (get32 (upd _ (din1.addrs (Fin.last NDIRECT)).toNat _
          (din1.addrs (Fin.last NDIRECT)).toNat) _).toNat = _
        rw [upd_self, get32_set32]
      · rw [hfb32]
        have : NMETA = 47 := rfl
        omega
      · exact hgrown'.ne_zero (by rwa [hlast])
    · have hne0 : places (cur v t ip) v.data (ip.inum, placeOf fbn) ≠ 0 := by
        rw [← hkeep, hlisted]
        exact toNat_ne_zero h0
      rw [if_neg hne0, add_zero] at hneed
      subst need
      exact hQ F v1 t1 st1 din1 _ (fun p hp => Or.inr ⟨hF' p hp, hle⟩) hgrown ht1 hlisted
        (toNat_ne_zero h0) (fun _ => by rwa [hlast]) hle1 h1

/-- The blocks of inode `i` are those of a file of `n` bytes. -/
structure PackedTo (place : ℕ × ℕ → ℕ) (i n : ℕ) : Prop where
  blocks : ∀ k < MAXFILE, place (i, placeOf k) ≠ 0 ↔ k * BSIZE < n
  indirect : place (i, NDIRECT) ≠ 0 ↔ NDIRECT * BSIZE < n

theorem PackedTo.need (h : PackedTo place i offset) (hk : offset / BSIZE < MAXFILE) (hm : 0 < m)
    (hmB : offset % BSIZE + m ≤ BSIZE) :
    blocksOf offset + ((if NDIRECT ≤ offset / BSIZE ∧ place (i, NDIRECT) = 0 then 1 else 0) +
        if place (i, placeOf (offset / BSIZE)) = 0 then 1 else 0) = blocksOf (offset + m) := by
  have hB : BSIZE = 1024 := rfl
  have hN : NDIRECT = 12 := rfl
  have hblock : place (i, placeOf (offset / BSIZE)) = 0 ↔ offset % BSIZE = 0 := by
    rw [← not_iff_not, ← ne_eq, h.blocks _ hk, hB]
    omega
  have hind : place (i, NDIRECT) = 0 ↔ offset ≤ NDIRECT * BSIZE := by
    rw [← not_iff_not, ← ne_eq, h.indirect, not_le]
  simp only [hblock, hind]
  unfold blocksOf
  rw [hB] at hmB
  rw [hB, hN]
  split_ifs <;> omega

theorem PackedTo.step {place' : ℕ × ℕ → ℕ} (h : PackedTo place i offset) (hm : 0 < m)
    (hmB : offset % BSIZE + m ≤ BSIZE)
    (hkeep : ∀ p, p ≠ placeOf (offset / BSIZE) → (p = NDIRECT → offset / BSIZE < NDIRECT) →
      place' (i, p) = place (i, p)) (hne : place' (i, placeOf (offset / BSIZE)) ≠ 0)
    (hind : NDIRECT ≤ offset / BSIZE → place' (i, NDIRECT) ≠ 0) :
    PackedTo place' i (offset + m) := by
  have hB : BSIZE = 1024 := rfl
  have hN : NDIRECT = 12 := rfl
  refine ⟨fun k hk => ?_, ?_⟩
  · by_cases hkb : k = offset / BSIZE
    · subst hkb
      refine iff_of_true hne ?_
      have := Nat.div_mul_le_self offset BSIZE
      omega
    · rw [hkeep _ (fun e => hkb (placeOf_inj e)) fun e => absurd e (placeOf_ne k), h.blocks k hk]
      rw [hB] at hkb hmB ⊢
      omega
  · by_cases hle : NDIRECT ≤ offset / BSIZE
    · refine iff_of_true (hind hle) ?_
      rw [hB, hN] at hle ⊢
      omega
    · rw [hkeep _ (placeOf_ne _).symm fun _ => by omega, h.indirect]
      rw [hB] at hmB
      rw [hB, hN] at hle ⊢
      omega

theorem blocksOf_mono {n : ℕ} (h : m ≤ n) : blocksOf m ≤ blocksOf n := by
  have hB : BSIZE = 1024 := rfl
  unfold blocksOf
  rw [hB, show NDIRECT = 12 from rfl]
  split_ifs <;> omega

theorem Mkfs.appendLoop_succ (din : Mkfs.DiskInode) (fuel offset : ℕ) (hdata : data ≠ [])
    (hm : m = min data.length (BSIZE - offset % BSIZE)) :
    Mkfs.appendLoop (fuel + 1) din offset data =
      if MAXFILE ≤ offset / BSIZE then throw .maxFile
      else (do
        let (din, x) ← Mkfs.sectorOf din (offset / BSIZE)
        let buf ← Mkfs.readSector x
        Mkfs.writeSector x (blit buf (offset % BSIZE) m fun i => data.getD i 0)
        Mkfs.appendLoop fuel din (offset + m) (data.drop m)) := by
  have hB : BSIZE = 1024 := rfl
  have hmod : offset - offset / BSIZE * BSIZE = offset % BSIZE := by
    rw [hB]
    omega
  have hmin : min data.length ((offset / BSIZE + 1) * BSIZE - offset) = m := by
    rw [hm, hB]
    omega
  rw [Mkfs.appendLoop, if_neg hdata]
  dsimp only
  rw [hmod, hmin]

theorem Mkfs.appendTurn_wp {β : Type} {src : Bytes} (hm0 : 0 < m)
    (hmB : offset % BSIZE + m ≤ BSIZE) (hk : offset / BSIZE < MAXFILE)
    (hown : Own sb (cur v t ip) v.bit v.data) (ht : (t ip.id).inner = din.toInner)
    (hpack : PackedTo (places (cur v t ip) v.data) ip.inum offset)
    {f : Mkfs.DiskInode → MkfsM β} (hf : ∀ din, Mkfs.Allocates 0 (f din))
    {Q : β → Mkfs.State → Prop}
    (hfb : fb + blocksOf (offset + m) ≤ sb.size + blocksOf offset ∨
      fb ≤ sb.size ∧ Mkfs.RunsOut sb Q E) (h : ImageAt sb v fb fi st)
    (hQ : ∀ F v' t' st' (din' : Mkfs.DiskInode) fb', Wrote sb ip F v t v' t' →
      contents v' t' ip = blit (contents v t ip) offset m src → (t' ip.id).inner = din'.toInner →
      PackedTo (places (cur v' t' ip) v'.data) ip.inum (offset + m) →
      fb' + blocksOf offset = fb + blocksOf (offset + m) → fb' ≤ sb.size → ImageAt sb v' fb' fi st' →
      wp (f din') Q E st') :
    wp (do
      let (din, x) ← Mkfs.sectorOf din (offset / BSIZE)
      let buf ← Mkfs.readSector x
      Mkfs.writeSector x (blit buf (offset % BSIZE) m src)
      f din) Q E st := by
  have hneed := hpack.need hk hm0 hmB
  rw [wp_bind]
  refine Mkfs.sectorOf_wp hown ht hk rfl (hfb.imp (by omega) fun ho => ⟨ho.1, ho.2.bind fun _ =>
    (Mkfs.allocates_readSector _).bind_zero fun _ => (Mkfs.allocates_writeSector _ _).bind_zero fun _ => hf _⟩) h ?_
  intro F v1 t1 st1 din1 x hF hgrown ht1 hx hx0 hind hle h1
  have hlt := h1.place_lt hgrown.own (hx.symm ▸ hx0)
  rw [hx] at hlt
  rw [wp_bind]
  refine Mkfs.readData_wp h1 hlt.1 ?_
  rw [wp_bind]
  refine Mkfs.writeData_wp h1 hlt.1 hlt.2 fun st2 h2 => ?_
  obtain ⟨hcopy, hcontents⟩ := Wrote.copy hgrown.own hx hx0 (f := src) hmB
  have hwrote := hgrown.toWrote.trans hcopy
  rw [Finset.union_empty] at hwrote
  refine hQ F _ t1 st2 din1 _ hwrote ?_ ht1 ?_ (by omega) hle h2
  · rw [hcontents, show contents v1 t1 ip = contents v t ip from funext hgrown.bytes]
  · refine hpack.step hm0 hmB (fun p hp hp' => hwrote.keep _ (Or.inr fun hmem => ?_))
      (hcopy.ne_zero (hx.symm ▸ hx0)) fun hle => hcopy.ne_zero (hind hle)
    rcases hF p hmem with e | ⟨e, hle⟩
    · exact hp e
    · have := hp' e
      omega

theorem Mkfs.appendLoop_max (fuel : ℕ) (din : Mkfs.DiskInode) (offset : ℕ) (data : List UInt8) :
    wp (Mkfs.appendLoop fuel din offset data) (fun _ _ => data ≠ [] →
      offset + data.length ≤ MAXFILE * BSIZE) (fun _ => True) st := by
  induction fuel generalizing din offset data st with
  | zero => exact trivial
  | succ fuel ih =>
    by_cases hdata : data = []
    · rw [hdata]
      exact fun hne => absurd rfl hne
    have hrest : data.length ≠ 0 := fun e => hdata (List.eq_nil_of_length_eq_zero e)
    obtain ⟨hm0, hmr, hmB, -, -, -⟩ := div_BSIZE_step offset rfl hrest
    rw [Mkfs.appendLoop_succ din fuel offset hdata rfl]
    generalize hm : min data.length (BSIZE - offset % BSIZE) = m at *
    refine wp_ite (fun _ => trivial) fun hk => ?_
    rw [wp_bind]
    refine wp_mono wp_true (fun ⟨din', x⟩ st1 _ => ?_) fun _ _ => trivial
    change wp (Mkfs.appendLoop fuel din' (offset + m) (data.drop m)) _ _ _
    refine wp_mono (ih din' (offset + m) (data.drop m)) (fun _ _ h _ => ?_) fun _ h => h
    have hB : BSIZE = 1024 := rfl
    have hend : offset + m + (data.drop m).length = offset + data.length := by
      rw [List.length_drop]
      omega
    by_cases hlast : data.drop m = []
    · rw [hlast, List.length_nil, add_zero] at hend
      rw [← hend, show MAXFILE = 268 from rfl, hB]
      rw [show MAXFILE = 268 from rfl, hB] at hk
      rw [hB] at hmB
      omega
    · rw [← hend]
      exact h hlast

theorem Mkfs.appendLoop_wp {fuel : ℕ} (hfuel : data.length < fuel)
    (hown : Own sb (cur v t ip) v.bit v.data) (ht : (t ip.id).inner = din.toInner)
    (hpack : PackedTo (places (cur v t ip) v.data) ip.inum offset)
    (hmax : offset + data.length ≤ MAXFILE * BSIZE ∨ E .maxFile)
    (hfb : fb + blocksOf (offset + data.length) ≤ sb.size + blocksOf offset ∨ fb ≤ sb.size ∧
      Mkfs.RunsOut sb Q E) (h : ImageAt sb v fb fi st)
    (hQ : ∀ F v' t' st' (din' : Mkfs.DiskInode) fb', Wrote sb ip F v t v' t' →
      contents v' t' ip = blit (contents v t ip) offset data.length (fun i => data.getD i 0) →
      (t' ip.id).inner = din'.toInner →
      PackedTo (places (cur v' t' ip) v'.data) ip.inum (offset + data.length) →
      fb' + blocksOf offset = fb + blocksOf (offset + data.length) → fb' ≤ sb.size →
      ImageAt sb v' fb' fi st' → Q (din', offset + data.length) st') :
    wp (Mkfs.appendLoop fuel din offset data) Q E st := by
  induction fuel generalizing offset data v t fb st din with
  | zero => omega
  | succ fuel ih =>
    by_cases hdata : data = []
    · subst hdata
      rw [List.length_nil, add_zero] at hfb
      exact hQ ∅ v t st din fb (Grown.refl hown).toWrote (blit_zero ..).symm ht hpack rfl
        (hfb.elim Nat.le_of_add_le_add_right And.left) h
    have hrest : data.length ≠ 0 := fun e => hdata (List.eq_nil_of_length_eq_zero e)
    have hB : BSIZE = 1024 := rfl
    obtain ⟨hm0, hmr, hmB, hlo, hhi, hnext⟩ := div_BSIZE_step offset rfl hrest
    rw [Mkfs.appendLoop_succ din fuel offset hdata rfl]
    generalize hm : min data.length (BSIZE - offset % BSIZE) = m at *
    refine wp_ite (fun hbig => hmax.elim (fun hle => ?_) id) fun hk => ?_
    · rw [show MAXFILE = 268 from rfl, hB] at hbig hle
      omega
    rw [not_le] at hk
    have hmono := blocksOf_mono (Nat.add_le_add_left hmr offset)
    have hdrop : (data.drop m).length = data.length - m := List.length_drop
    have hend : offset + m + (data.drop m).length = offset + data.length := by omega
    refine Mkfs.appendTurn_wp (f := fun din => Mkfs.appendLoop fuel din (offset + m) (data.drop m))
      hm0 hmB hk hown ht hpack (fun _ => Mkfs.allocates_appendLoop _ _ _ _) (hfb.imp_left (by omega)) h ?_
    intro F v1 t1 st1 din1 fb1 hwrote hcontents ht1 hpack1 hfb1 hle1 h1
    refine ih (by omega) hwrote.own ht1 hpack1 ?_ ?_ h1 ?_
    · rwa [hend]
    · rw [hend]
      exact hfb.imp (by omega) fun ho => ⟨hle1, ho.2⟩
    · intro F' v2 t2 st2 din2 fb2 hwrote' hcontents' ht2 hpack2 hfb2 hle2 h2
      rw [hend] at hpack2 hfb2 ⊢
      refine hQ _ v2 t2 st2 din2 fb2 (hwrote.trans hwrote') ?_ ht2 hpack2 (by omega) hle2 h2
      have hsrc : (fun i => (data.drop m).getD i 0) = fun i => data.getD (0 + m + i) 0 := by
        funext i
        rw [List.getD_eq_getElem?_getD, List.getElem?_drop, ← List.getD_eq_getElem?_getD, zero_add]
      have hblit := blit_blit (contents v t ip) (fun i => data.getD i 0) offset m (data.length - m) 0
      simp only [zero_add, Nat.add_sub_cancel' hmr] at hblit
      rw [hcontents', hcontents, hdrop, hsrc]
      simpa using hblit

/-- Inode `i` is a file or directory with contents `data`, which has one link. -/
structure FileAt (v : View) (i : ℕ) (type : InodeType) (data : List UInt8) : Prop where
  type : (v.node i).type = type
  nlink : (v.node i).nlink = 1
  size : (v.node i).size.toNat = data.length
  byte : v.byte i = fun x => data.getD x 0
  packed : PackedTo (places v.node v.data) i data.length

/-- Inodes other than `i` are as before. -/
def SameElse (i : ℕ) (v v' : View) : Prop :=
  ∀ j ≠ i, v'.node j = v.node j ∧ v'.byte j = v.byte j ∧
    ∀ p, places v'.node v'.data (j, p) = places v.node v.data (j, p)

theorem FileAt.same {j : ℕ} {v' : View} (h : FileAt v j type data) (hv : SameElse i v v')
    (hj : j ≠ i) : FileAt v' j type data := by
  obtain ⟨hnode, hbyte, hpl⟩ := hv j hj
  refine ⟨by rw [hnode, h.type], by rw [hnode, h.nlink], by rw [hnode, h.size], by rw [hbyte, h.byte],
    ⟨fun k hk => ?_, ?_⟩⟩
  · rw [hpl]
    exact h.packed.blocks k hk
  · rw [hpl]
    exact h.packed.indirect

theorem Mkfs.appendInode_wp (hi : i < sb.ninodes) (hown : Own sb v.node v.bit v.data)
    {old : List UInt8} (hfile : FileAt v i type old)
    (hmax : (old ++ data).length ≤ MAXFILE * BSIZE ∨ E .maxFile) {Q : PUnit → Mkfs.State → Prop}
    (hfb : fb + blocksOf (old ++ data).length ≤ sb.size + blocksOf old.length ∨ fb ≤ sb.size ∧
      Mkfs.RunsOut sb Q E) (h : ImageAt sb v fb fi st)
    (hQ : ∀ v' fb' st', Own sb v'.node v'.bit v'.data → FileAt v' i type (old ++ data) →
      SameElse i v v' → fb' + blocksOf old.length = fb + blocksOf (old ++ data).length →
      fb' ≤ sb.size → ImageAt sb v' fb' fi st' → Q ⟨⟩ st') :
    wp (Mkfs.appendInode i data) Q E st := by
  have h32 := MAXFILE_mul_BSIZE
  rw [List.length_append] at hmax hfb hQ
  unfold Mkfs.appendInode
  rw [wp_bind]
  refine Mkfs.readInode_wp hi h fun din hdin => ?_
  -- the inode that is being changed, as if it were in the inode table
  let ip : Inode := ⟨0, i⟩
  let t : Fin NINODE → Slot := fun _ => ⟨1, i, true, true, v.node i⟩
  have hs : Synced v t ip := rfl
  have hcur : cur v t ip = v.node := hs.cur
  have hsize : din.size.toNat = old.length := by
    rw [← hfile.size, ← hdin]
    rfl
  rw [hsize, wp_bind]
  have hpacked : PackedTo (places (cur v t ip) v.data) ip.inum old.length := by
    rw [hcur]
    exact hfile.packed
  refine wp_also (Mkfs.appendLoop_max _ _ _ _) ?_
  refine Mkfs.appendLoop_wp (Nat.lt_succ_self _) (by rwa [hcur]) hdin.symm hpacked hmax
    (hfb.imp_right fun ho => ⟨ho.1, ho.2.1, fun a st hlt _ => (ho.2.bind fun _ =>
      Mkfs.allocates_writeInode _ _).2 a st hlt⟩) h ?_
  intro F v1 t1 st1 din1 fb1 hwrote hcontents ht1 hpack hfb1 hle1 h1 hfits
  have hlt : old.length + data.length < 2 ^ 32 := by
    by_cases hdata : data = []
    · rw [hdata, List.length_nil, add_zero, ← hfile.size]
      exact UInt32.toNat_lt _
    · have := hfits hdata
      omega
  refine Mkfs.writeInode_wp hi _ h1 fun st2 h2 => ?_
  set n := ({ din1 with size := UInt32.ofNat (old.length + data.length) } : Mkfs.DiskInode).toInner
    with hn
  obtain ⟨addrs, rfl⟩ := hwrote.table
  have hinner : din1.toInner = { v.node i with addrs := addrs } := by
    rw [← ht1, setAddrs_inner]
  have hn' : n = { v.node i with addrs := addrs, size := UInt32.ofNat (old.length + data.length) } := by
    change ({ din1.toInner with size := UInt32.ofNat (old.length + data.length) } : InodeInner) = _
    rw [hinner]
  have hpl : places (v1.setNode i n).node (v1.setNode i n).data =
      places (cur v1 (setAddrs t ip addrs) ip) v1.data := by
    refine places_congr (fun j => ?_) v1.data
    change (upd v1.node i n j).addrs = (upd v1.node i _ j).addrs
    by_cases hj : j = i
    · rw [hj, upd_self, upd_self, hn', setAddrs_inner]
    · rw [upd_of_ne hj, upd_of_ne hj]
  have hbyte (j : ℕ) : (v1.setNode i n).byte j =
      byteAt (places (cur v1 (setAddrs t ip addrs) ip) v1.data) v1.data j := by
    unfold View.byte
    rw [hpl]
    rfl
  have hnode : (v1.setNode i n).node i = n := upd_self ..
  refine hQ (v1.setNode i n) fb1 st2 ⟨?_, hwrote.own.reserved⟩ ⟨?_, ?_, ?_, ?_, ?_⟩ (fun j hj => ⟨?_, ?_, fun p => ?_⟩)
    hfb1 hle1 h2
  · rw [hpl]
    exact hwrote.own.owned
  · rw [hnode, hn', ← hfile.type]
  · rw [hnode, hn', ← hfile.nlink]
  · rw [hnode, hn', List.length_append]
    exact toNat_ofNat_of_lt (n := 2 ^ 32) le_rfl hlt
  · rw [hbyte]
    refine hcontents.trans ?_
    rw [hs.contents, hfile.byte]
    exact blit_append old data
  · rw [hpl, List.length_append]
    exact hpack
  · rw [View.setNode_node, upd_of_ne hj, hwrote.node]
  · rw [hbyte, funext (hwrote.others j hj), hcur]
    rfl
  · rw [hpl, hwrote.keep _ (Or.inl hj), hcur]

end Append

end Octopos
