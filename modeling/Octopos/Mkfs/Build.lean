import Octopos.Mkfs.Append

/-!
# The image that `mkfs` builds

After every input file the image holds the files so far, one inode each, and a root directory that
names them (`Built`); the finished image has the rounded size of the root directory and the bitmap
(`ImageOk`). For input that fits, `mkfs` gets to the end (`Mkfs.main_wp`).
-/

namespace Octopos

/-- Number of blocks of the image that are in use. -/
def imageBlocks (files : List InputFile) : ℕ :=
  NMETA + blocksOf (DIRENTSIZE * (files.length + 2)) + (files.map fun f => blocksOf f.data.length).sum

/-- The input files fit the image. -/
structure Fits (files : List InputFile) : Prop where
  names : (files.map InputFile.name).Nodup
  short : ∀ f ∈ files, f.name.length < DIRSIZE
  count : files.length ≤ NINODES - 2
  size : ∀ f ∈ files, f.data.length ≤ MAXFILE * BSIZE
  blocks : imageBlocks files ≤ FSSIZE

/-- There are inodes and blocks enough for the files. -/
structure RoomFor (sb : SuperBlock) (files : List InputFile) : Prop where
  count : files.length + 2 ≤ sb.ninodes
  blocks : imageBlocks files ≤ sb.size

def rootEntries (files : List InputFile) : List DirEntry :=
  ⟨UInt16.ofNat ROOTINO, DOT⟩ :: ⟨UInt16.ofNat ROOTINO, DOTDOT⟩ ::
    files.mapIdx fun k f => ⟨UInt16.ofNat (k + 2), f.name⟩

/-- The bytes of entries, one after the other. -/
def entryBytes (es : List DirEntry) : List UInt8 :=
  es.flatMap fun e => (List.range DIRENTSIZE).map e.bytes

theorem length_entryBytes (es : List DirEntry) :
    (entryBytes es).length = DIRENTSIZE * es.length := by
  induction es with
  | nil => rfl
  | cons e es ih =>
    have hcons : entryBytes (e :: es) = (List.range DIRENTSIZE).map e.bytes ++ entryBytes es := rfl
    rw [hcons, List.length_append, ih, List.length_map, List.length_range, List.length_cons]
    ring

theorem length_rootEntries (files : List InputFile) :
    (rootEntries files).length = files.length + 2 := by
  simp [rootEntries]

theorem entryBytes_append (es es' : List DirEntry) :
    entryBytes (es ++ es') = entryBytes es ++ entryBytes es' := List.flatMap_append

theorem rootEntries_append (files : List InputFile) (f : InputFile) :
    rootEntries (files ++ [f]) = rootEntries files ++
      [⟨UInt16.ofNat (files.length + 2), f.name⟩] := by
  simp [rootEntries, List.mapIdx_append]

theorem entryBytes_singleton (e : DirEntry) :
    entryBytes [e] = (List.range DIRENTSIZE).map e.bytes := by
  simp [entryBytes]

/-- The image holds the files `pre`; the next block is `fb`. -/
structure Built (sb : SuperBlock) (pre : List InputFile) (v : View) (fb : ℕ) : Prop where
  own : Own sb v.node v.bit v.data
  root : FileAt v ROOTINO .directory (entryBytes (rootEntries pre))
  files : ∀ k (hk : k < pre.length), FileAt v (k + 2) .file pre[k].data
  blank : ∀ i, i = 0 ∨ pre.length + 2 ≤ i → v.node i = default
  count : fb = imageBlocks pre

section Build

variable {sb : Octopos.SuperBlock} {v : View} {fb fi : ℕ} {st : Mkfs.State} {E : Mkfs.Panic → Prop}
variable {n : InodeInner} {Q : PUnit → Mkfs.State → Prop}
variable {files : List InputFile}

theorem InodeInner.ptr_of_addrs (hn : n.addrs = fun _ => 0) (data : ℕ → Bytes) (p : ℕ) :
    n.ptr data p = 0 := by
  unfold InodeInner.ptr
  rw [hn]
  split_ifs with h1 h2
  · rfl
  · exact absurd rfl h2.2
  · rfl

theorem FileAt.of_blank {i : ℕ} {type : InodeType} (hnode : v.node i = n) (htype : n.type = type)
    (haddrs : n.addrs = fun _ => 0) (hnlink : n.nlink = 1) (hsize : n.size = 0) :
    FileAt v i type [] := by
  have hpl (p : ℕ) : places v.node v.data (i, p) = 0 := by
    rw [places_mk, hnode]
    exact InodeInner.ptr_of_addrs haddrs _ p
  refine ⟨by rw [hnode, htype], by rw [hnode, hnlink], by rw [hnode, hsize]; rfl, ?_,
    ⟨fun k _ => ?_, ?_⟩⟩
  · funext x
    unfold View.byte byteAt
    dsimp only
    rw [hpl, if_pos rfl]
    rfl
  · simp [hpl]
  · simp [hpl]

theorem Mkfs.allocateInode_wp {type : UInt16} (hfi : fi < sb.ninodes)
    (hblank : v.node fi = default) (hown : Own sb v.node v.bit v.data) {Q : ℕ → Mkfs.State → Prop}
    (h : ImageAt sb v fb fi st)
    (hQ : ∀ v' st', Own sb v'.node v'.bit v'.data → FileAt v' fi (InodeType.ofU16 type) [] →
      SameElse fi v v' → ImageAt sb v' fb (fi + 1) st' → Q fi st') :
    wp (Mkfs.allocateInode type) Q E st := by
  unfold Mkfs.allocateInode
  rw [wp_bind, wp_get, wp_bind, wp_set, wp_bind, h.freeInode]
  have h' : ImageAt sb v fb (fi + 1) { st with freeInode := fi + 1 } := { h with freeInode := rfl }
  refine Mkfs.writeInode_wp hfi _ h' fun st1 h1 => ?_
  have haddrs : ((⟨type, 0, 0, 1, 0, fun _ => 0⟩ : Mkfs.DiskInode).toInner).addrs = (v.node fi).addrs := by
    rw [hblank]
    rfl
  have hpl := View.places_setNode haddrs
  refine hQ (v.setNode fi _) st1 ⟨hpl.symm ▸ hown.owned, hown.reserved⟩ (.of_blank (upd_self ..) rfl rfl rfl rfl)
    (fun j hj => ⟨upd_of_ne hj, ?_, fun p => ?_⟩) h1
  · exact congrFun (View.byte_setNode haddrs) j
  · exact congrFun hpl (j, p)

/-! ## The files -/

theorem imageBlocks_append (pre post : List InputFile) :
    imageBlocks (pre ++ post) = NMETA + blocksOf (DIRENTSIZE * (pre.length + post.length + 2)) +
      ((pre.map fun f => blocksOf f.data.length).sum +
        (post.map fun f => blocksOf f.data.length).sum) := by
  unfold imageBlocks
  rw [List.length_append, List.map_append, List.sum_append]

theorem imageBlocks_le (pre : List InputFile) (f : InputFile) (post : List InputFile) :
    imageBlocks (pre ++ [f]) ≤ imageBlocks (pre ++ f :: post) := by
  have hmono : blocksOf (DIRENTSIZE * (pre.length + 1 + 2)) ≤
      blocksOf (DIRENTSIZE * (pre.length + (post.length + 1) + 2)) :=
    blocksOf_mono (Nat.mul_le_mul_left _ (by omega))
  rw [imageBlocks_append, imageBlocks_append, List.length_singleton, List.map_singleton, List.sum_singleton,
    List.length_cons, List.map_cons, List.sum_cons]
  omega

/-- One turn of the loop of `main`, also when the blocks do not suffice for the new file. -/
theorem Mkfs.addFile_wp {pre : List InputFile} {f : InputFile}
    (hcount : pre.length + 3 ≤ sb.ninodes) (hname : f.name.length < DIRSIZE ∨ E .nameLength)
    (hsize : f.data.length ≤ MAXFILE * BSIZE ∨ E .maxFile)
    (hfb : imageBlocks (pre ++ [f]) ≤ sb.size ∨ fb ≤ sb.size ∧ Mkfs.RunsOut sb Q E)
    (hbuilt : Built sb pre v fb) (h : ImageAt sb v fb (pre.length + 2) st)
    (hQ : ∀ v' fb' st', Built sb (pre ++ [f]) v' fb' → fb' ≤ sb.size →
      ImageAt sb v' fb' ((pre ++ [f]).length + 2) st' → Q ⟨⟩ st') :
    wp (Mkfs.addFile ROOTINO f) Q E st := by
  have hD : DIRENTSIZE = 16 := rfl
  have hB : BSIZE = 1024 := rfl
  have hinodes : sb.ninodes ≤ 208 := h.layout.ninodes_le
  rw [imageBlocks_append, List.length_singleton, List.map_singleton, List.sum_singleton] at hfb
  have hfbeq := hbuilt.count
  unfold imageBlocks at hfbeq
  have hroot : ROOTINO ≠ pre.length + 2 := by
    have : ROOTINO = 1 := rfl
    omega
  unfold Mkfs.addFile
  refine wp_ite (fun hlong => hname.resolve_left (by omega)) fun hshort => ?_
  rw [not_le] at hshort
  rw [wp_bind]
  refine Mkfs.allocateInode_wp (by omega) (hbuilt.blank _ (Or.inr le_rfl))
    hbuilt.own h fun v1 st1 hown1 hnew1 hsame1 h1 => ?_
  dsimp only
  rw [Mkfs.Directory.bytes_setName hshort.le fun _ _ => rfl, ← entryBytes_singleton, wp_bind]
  -- the entry in the root directory
  have hroot1 := hbuilt.root.same hsame1 hroot
  have hes : entryBytes (rootEntries pre) ++ entryBytes [⟨UInt16.ofNat (pre.length + 2), f.name⟩] =
      entryBytes (rootEntries (pre ++ [f])) := by
    rw [← entryBytes_append, ← rootEntries_append]
  have hlenr (l : List InputFile) : (entryBytes (rootEntries l)).length = DIRENTSIZE * (l.length + 2) := by
    rw [length_entryBytes, length_rootEntries]
  refine Mkfs.appendInode_wp h.layout.valid.root hown1 hroot1 (Or.inl ?_) ?_ h1 ?_
  · rw [hes, hlenr, hD, hB, show MAXFILE = 268 from rfl, List.length_append]
    simp only [List.length_cons, List.length_nil, zero_add]
    omega
  · rw [hes, hlenr, hlenr, List.length_append]
    simp only [List.length_cons, List.length_nil, zero_add]
    exact hfb.imp (by omega) fun ho => ⟨ho.1, ho.2.bind fun _ => Mkfs.allocates_appendInode _ _⟩
  intro v2 fb2 st2 hown2 hroot2 hsame2 hfb2 hle2 h2
  rw [hes] at hroot2 hfb2
  rw [hlenr, hlenr, List.length_append] at hfb2
  simp only [List.length_cons, List.length_nil, zero_add] at hfb2
  -- the contents of the file
  have hnew2 := hnew1.same hsame2 hroot.symm
  have hzero : blocksOf 0 = 0 := rfl
  refine Mkfs.appendInode_wp (by omega) hown2 hnew2 ?_ ?_ h2 ?_
  · rwa [List.nil_append]
  · rw [List.nil_append, List.length_nil, hzero]
    exact hfb.imp (by omega) fun ho => ⟨hle2, ho.2⟩
  intro v3 fb3 st3 hown3 hnew3 hsame3 hfb3 hle3 h3
  rw [List.nil_append] at hnew3 hfb3
  change FileAt v3 (pre.length + 2) .file f.data at hnew3
  rw [List.length_nil, hzero] at hfb3
  refine hQ v3 fb3 st3 ⟨hown3, hroot2.same hsame3 hroot, fun k hk => ?_, fun i hi => ?_, ?_⟩ hle3 ?_
  · rw [List.length_append] at hk
    simp only [List.length_cons, List.length_nil, zero_add] at hk
    by_cases hlast : k = pre.length
    · subst hlast
      rw [List.getElem_append_right le_rfl]
      simpa using hnew3
    · have hk' : k < pre.length := by omega
      rw [List.getElem_append_left hk']
      refine (((hbuilt.files k hk').same hsame1 ?_).same hsame2 ?_).same hsame3 ?_
      · omega
      · have : ROOTINO = 1 := rfl
        omega
      · omega
  · rw [List.length_append] at hi
    simp only [List.length_cons, List.length_nil, zero_add] at hi
    have hR : ROOTINO = 1 := rfl
    rw [(hsame3 i (by omega)).1, (hsame2 i (by omega)).1, (hsame1 i (by omega)).1]
    exact hbuilt.blank i (by omega)
  · rw [imageBlocks_append]
    simp only [List.length_cons, List.length_nil, List.map_cons, List.map_nil, List.sum_cons, List.sum_nil, zero_add]
    omega
  · rw [List.length_append]
    exact h3

/-! ## The whole program -/

/-- The finished image. -/
structure ImageOk (files : List InputFile) (d : ℕ → Bytes) : Prop where
  super : SuperBlock.initializeFrom (d 1) = some mkfsSuper
  own : Own mkfsSuper (mkfsSuper.view d).node (mkfsSuper.view d).bit (mkfsSuper.view d).data
  type : ((mkfsSuper.view d).node ROOTINO).type = .directory
  nlink : ((mkfsSuper.view d).node ROOTINO).nlink = 1
  size : ((mkfsSuper.view d).node ROOTINO).size.toNat =
    (DIRENTSIZE * (files.length + 2) / BSIZE + 1) * BSIZE
  byte : (mkfsSuper.view d).byte ROOTINO = fun x => (entryBytes (rootEntries files)).getD x 0
  packed : PackedTo (places (mkfsSuper.view d).node (mkfsSuper.view d).data) ROOTINO
    (DIRENTSIZE * (files.length + 2))
  blank : ∀ i, i = 0 ∨ files.length + 2 ≤ i → (mkfsSuper.view d).node i = default
  files : ∀ k (hk : k < files.length), FileAt (mkfsSuper.view d) (k + 2) .file files[k].data

theorem Mkfs.zero_wp {n : ℕ}
    (hQ : ∀ st', (∀ b < n, st'.sector b = fun _ => 0) → (∀ b, n ≤ b → st'.sector b = st.sector b) →
      st'.freeBlock = st.freeBlock → st'.freeInode = st.freeInode → Q ⟨⟩ st') :
    wp ((List.range n).forM fun i => Mkfs.writeSector i fun _ => 0) Q E st := by
  refine wp_mono (wp_forM_range (I := fun n st' => (∀ b < n, st'.sector b = fun _ => 0) ∧
    (∀ b, n ≤ b → st'.sector b = st.sector b) ∧ st'.freeBlock = st.freeBlock ∧
    st'.freeInode = st.freeInode) ?_ ?_) ?_ fun _ h => h
  · rintro i _ st' ⟨hz, ho, hb, hi⟩
    refine ⟨fun b hb' => ?_, fun b hb' => (upd_of_ne (by omega)).trans (ho b (by omega)), hb, hi⟩
    change upd st'.sector i (fun _ => 0) b = _
    by_cases hbi : b = i
    · rw [hbi, upd_self]
    · rw [upd_of_ne hbi]
      exact hz b (by omega)
  · exact ⟨fun b hb => absurd hb (Nat.not_lt_zero b), fun _ _ => rfl, rfl, rfl⟩
  · rintro _ st' ⟨hz, ho, hb, hi⟩
    exact hQ st' hz ho hb hi

theorem ImageAt.initial (hlayout : MkfsLayout sb)
    (hzero : ∀ b, b < NMETA ∨ b < sb.size → b ≠ 1 → st.sector b = fun _ => 0)
    (hsuper : st.sector 1 = blit (fun _ => 0) 0 32 Mkfs.superBlock.bytes)
    (hfb : st.freeBlock = NMETA) (hfi : st.freeInode = 1) :
    ∃ v, ImageAt sb v NMETA 1 st ∧ Own sb v.node v.bit v.data ∧ ∀ i, v.node i = default := by
  have hN : NMETA = 47 := rfl
  have hnode (i : ℕ) : (sb.view st.sector).node i = default := by
    unfold SuperBlock.view
    dsimp only
    split_ifs with hi
    · have hlt := hlayout.valid.inodes i hi
      rw [hlayout.bmapstart, show 2 + NLOG + NINODEBLOCKS = 46 from rfl] at hlt
      have hge : 33 ≤ sb.inodeBlock i := by
        rw [← hlayout.inodeBlock]
        exact Nat.le_add_right 33 _
      rw [hzero _ (Or.inl (by omega)) (by omega)]
      rfl
    · rfl
  have hpl (x : ℕ × ℕ) : places (sb.view st.sector).node (sb.view st.sector).data x = 0 := by
    obtain ⟨i, p⟩ := x
    rw [places_mk, hnode]
    exact InodeInner.ptr_of_addrs rfl _ p
  refine ⟨⟨fun b => decide (b < NMETA), (sb.view st.sector).node,
    (sb.view st.sector).data⟩, ⟨hlayout, hsuper, fun b hb => hzero b (Or.inl ?_), rfl, rfl, hfb, hfi,
      le_rfl, rfl, fun b hb hlt => ?_⟩,
    ⟨⟨by rw [hlayout.dataStart]; decide, fun x hx => absurd (hpl x) hx, fun x hx => absurd (hpl x) hx,
      fun x _ hx => absurd (hpl x) hx, fun b hlo _ hb => ?_⟩, fun b hb _ => ?_⟩, hnode⟩
  · have : 2 + NLOG = 33 := rfl
    omega
  · change (if sb.dataStart ≤ b then st.sector b else fun _ => 0) = _
    rw [if_pos (by rwa [hlayout.dataStart])]
    exact hzero b (Or.inr hlt) (by omega)
  · rw [hlayout.dataStart] at hlo
    rw [decide_eq_true_eq] at hb
    omega
  · rw [hlayout.dataStart] at hb
    exact decide_eq_true hb

/-- The regions of the image before the data hold what was written for them: the bitmap marks the
blocks that were handed out. -/
structure Regions (st : Mkfs.State) : Prop where
  super : st.sector 1 = blit (fun _ => 0) 0 32 Mkfs.superBlock.bytes
  log : ∀ b < 2 + NLOG, b ≠ 1 → st.sector b = fun _ => 0
  bitmap : st.sector Mkfs.superBlock.bmapstart.toNat = Mkfs.usedBits st.freeBlock

theorem view_usedBits {d : ℕ → Bytes} (hv : (mkfsSuper.view d).node = v.node)
    (hd : (mkfsSuper.view d).data = v.data) (hbit : v.bit = fun b => decide (b < fb))
    (hfb : fb ≤ FSSIZE) : mkfsSuper.view (upd d 46 (Mkfs.usedBits fb)) = v := by
  have hB : BPB = 8192 := rfl
  have hS : FSSIZE = 2000 := rfl
  obtain ⟨bit, node, data⟩ := v
  dsimp only at hv hd hbit
  subst hv hd hbit
  unfold SuperBlock.view
  refine congr (congr (congrArg View.mk ?_) ?_) ?_
  · funext b
    by_cases hb : b < mkfsSuper.size
    · have hb' : b < 2000 := hb
      have hblock : mkfsSuper.bmapstart + b / BPB = 46 := by
        change 46 + b / BPB = 46
        rw [hB]
        omega
      have hmod : b % BPB = b := by
        rw [hB]
        omega
      rw [hblock, upd_self, hmod, decide_eq_true hb, Bool.true_and]
      have := Mkfs.usedBits_eq_zero fb b
      by_cases hlt : b < fb
      · rw [decide_eq_true hlt, Bool.not_eq_true', beq_eq_false_iff_ne, ne_eq, this]
        omega
      · rw [decide_eq_false hlt, Bool.not_eq_false', beq_iff_eq, this]
        omega
    · have hb' : ¬b < 2000 := hb
      rw [decide_eq_false hb, Bool.false_and, decide_eq_false (by omega)]
  · funext i
    dsimp only
    by_cases hi : i < mkfsSuper.ninodes
    · have hlt : mkfsSuper.inodeBlock i < 46 := mkfsSuper_valid.inodes i hi
      rw [if_pos hi, if_pos hi, upd_of_ne (by omega)]
    · rw [if_neg hi, if_neg hi]
  · funext b
    dsimp only
    by_cases hb : mkfsSuper.dataStart ≤ b
    · have hb' : 47 ≤ b := hb
      rw [if_pos hb, if_pos hb, upd_of_ne (by omega)]
    · rw [if_neg hb, if_neg hb]

theorem Mkfs.finish_wp (hroom : RoomFor mkfsSuper files)
    (hbuilt : Built mkfsSuper files v fb) (h : ImageAt mkfsSuper v fb fi st) :
    wp (do
      let din ← Mkfs.readInode ROOTINO
      Mkfs.writeInode ROOTINO
        { din with size := UInt32.ofNat ((din.size.toNat / BSIZE + 1) * BSIZE) }
      let s ← get
      Mkfs.allocateBlock s.freeBlock Mkfs.superBlock.bmapstart.toNat)
      (fun _ st' => ImageOk files st'.sector ∧ Regions st' ∧ st'.freeBlock = fb ∧ st'.freeInode = fi)
      E st := by
  have hD : DIRENTSIZE = 16 := rfl
  have hB : BSIZE = 1024 := rfl
  have hcount : files.length + 2 ≤ 200 := hroom.count
  have hfb : fb ≤ FSSIZE := by
    rw [hbuilt.count]
    exact hroom.blocks
  have hlen : (entryBytes (rootEntries files)).length = DIRENTSIZE * (files.length + 2) := by
    rw [length_entryBytes, length_rootEntries]
  rw [wp_bind]
  refine Mkfs.readInode_wp (by decide) h fun din hdin => ?_
  have hsize : din.size.toNat = DIRENTSIZE * (files.length + 2) := by
    rw [← hlen, ← hbuilt.root.size, ← hdin]
    rfl
  rw [wp_bind, hsize]
  refine Mkfs.writeInode_wp (by decide) _ h fun st1 h₁ => ?_
  rw [wp_bind, wp_get, h₁.freeBlock]
  unfold Mkfs.allocateBlock
  refine wp_ite (fun hbig => absurd hfb ?_) fun _ => ?_
  · have : BPB = 8192 := rfl
    have : FSSIZE = 2000 := rfl
    omega
  generalize hn : ({ din with size := UInt32.ofNat ((DIRENTSIZE * (files.length + 2) / BSIZE + 1) *
    BSIZE) } : Mkfs.DiskInode).toInner = n at *
  have hn' : n = { v.node ROOTINO with
      size := UInt32.ofNat ((DIRENTSIZE * (files.length + 2) / BSIZE + 1) * BSIZE) } := by
    rw [← hn, ← hdin]
    rfl
  have haddrs : n.addrs = (v.node ROOTINO).addrs := by rw [hn']
  have hpl := View.places_setNode haddrs
  have hnode : (v.setNode ROOTINO n).node ROOTINO = n := by
    rw [View.setNode_node, upd_self]
  have hview : mkfsSuper.view (upd st1.sector 46 (Mkfs.usedBits fb)) = v.setNode ROOTINO n :=
    view_usedBits h₁.node h₁.data h₁.bit hfb
  have hregions : Regions { st1 with sector := upd st1.sector 46 (Mkfs.usedBits fb) } := by
    have hL : 2 + NLOG = 33 := rfl
    have hsector {b : ℕ} (hb : b ≠ 46) : upd st1.sector 46 (Mkfs.usedBits fb) b = st1.sector b := upd_of_ne hb
    refine ⟨(hsector (by decide)).trans h₁.super, fun b hb h1 => (hsector (by omega)).trans (h₁.log b hb h1), ?_⟩
    change upd st1.sector 46 (Mkfs.usedBits fb) 46 = Mkfs.usedBits st1.freeBlock
    rw [upd_self, h₁.freeBlock]
  refine ⟨?_, hregions, h₁.freeBlock, h₁.freeInode⟩
  change ImageOk files (upd st1.sector 46 (Mkfs.usedBits fb))
  refine ⟨?_, ?_, ?_, ?_, ?_, ?_, ?_, fun i hi => ?_, fun k hk => ?_⟩
  · rw [upd_of_ne (by decide), h₁.super]
    exact initializeFrom_superBlock _
  all_goals rw [hview]
  · exact ⟨hpl.symm ▸ hbuilt.own.owned, hbuilt.own.reserved⟩
  · rw [hnode, hn', ← hbuilt.root.type]
  · rw [hnode, hn', ← hbuilt.root.nlink]
  · rw [hnode, hn']
    refine toNat_ofNat_of_lt (n := 2 ^ 32) le_rfl ?_
    rw [hD, hB]
    omega
  · rw [View.byte_setNode haddrs, hbuilt.root.byte]
  · rw [hpl, ← hlen]
    exact hbuilt.root.packed
  · have hR : ROOTINO = 1 := rfl
    rw [View.setNode_node, upd_of_ne (by omega)]
    exact hbuilt.blank i hi
  · have hk2 : k + 2 ≠ ROOTINO := by
      have : ROOTINO = 1 := rfl
      omega
    refine (hbuilt.files k hk).same (i := ROOTINO) (fun j hj => ⟨upd_of_ne hj, ?_, fun p => ?_⟩) hk2
    · rw [View.byte_setNode haddrs]
    · rw [hpl]

theorem Mkfs.main_of_loop (hlayout : MkfsLayout sb) (hone : NMETA + 1 ≤ sb.size)
    (hfresh : ∀ b, FSSIZE ≤ b → b < sb.size → st.sector b = fun _ => 0)
    (hloop : ∀ v st', Built sb [] v (NMETA + 1) → ImageAt sb v (NMETA + 1) 2 st' →
      wp (do
        files.forM (Mkfs.addFile ROOTINO)
        let din ← Mkfs.readInode ROOTINO
        Mkfs.writeInode ROOTINO
          { din with size := UInt32.ofNat ((din.size.toNat / BSIZE + 1) * BSIZE) }
        let s ← get
        Mkfs.allocateBlock s.freeBlock Mkfs.superBlock.bmapstart.toNat) Q E st') :
    wp (Mkfs.main files) Q E st := by
  unfold Mkfs.main
  rw [wp_bind, wp_modify, wp_bind]
  -- with the number itself, unification would run the loop
  generalize hn : FSSIZE = n at hfresh
  refine Mkfs.zero_wp ?_
  intro st1 hzero hothers hfb hfi
  rw [wp_bind]
  let st2 : Mkfs.State :=
    { st1 with sector := upd st1.sector 1 (blit (fun _ => 0) 0 32 Mkfs.superBlock.bytes) }
  have hsectors (b : ℕ) (hb : b < NMETA ∨ b < sb.size) (hb1 : b ≠ 1) : st2.sector b = fun _ => 0 := by
    refine (upd_of_ne hb1).trans ?_
    by_cases hbn : b < n
    · exact hzero b hbn
    · have hN : NMETA ≤ n := by
        rw [← hn]
        decide
      exact (hothers b (by omega)).trans (hfresh b (by omega) (by omega))
  obtain ⟨v, h, hown, hblank⟩ := ImageAt.initial hlayout hsectors (upd_self st1.sector 1 _) hfb hfi
  change wp _ _ E st2
  have hroot := hlayout.valid.root
  rw [wp_bind]
  refine Mkfs.allocateInode_wp hroot (hblank 1) hown h fun v1 st2 hown1 hroot1 hsame1 h1 => ?_
  refine wp_ite (fun hne => absurd rfl hne) fun _ => ?_
  -- the entries `.` and `..`
  change FileAt v1 ROOTINO .directory [] at hroot1
  dsimp only
  rw [Mkfs.Directory.bytes_setName (by decide) fun _ _ => rfl, ← entryBytes_singleton, wp_bind]
  refine Mkfs.appendInode_wp hroot hown1 hroot1 (Or.inl (by decide)) (Or.inl hone) h1 ?_
  intro v2 fb2 st3 hown2 hroot2 hsame2 hfb2 _ h2
  have hfb2' : fb2 = NMETA + 1 := hfb2
  subst hfb2'
  rw [Mkfs.Directory.bytes_setName (by decide), ← entryBytes_singleton, wp_bind]
  swap
  · intro i hi
    have hDOT : DOT.length = 1 := rfl
    have hDOTDOT : DOTDOT.length = 2 := rfl
    rw [Mkfs.Directory.setName_name (by omega)]
  rw [List.nil_append] at hroot2
  refine Mkfs.appendInode_wp hroot hown2 hroot2 (Or.inl (by decide)) (Or.inl (Nat.add_le_add_right hone 1)) h2 ?_
  intro v3 fb3 st4 hown3 hroot3 hsame3 hfb3 _ h3
  have hfb3' : fb3 = NMETA + 1 := Nat.add_right_cancel hfb3
  subst hfb3'
  have hbuilt : Built sb [] v3 (NMETA + 1) := by
    refine ⟨hown3, hroot3, fun k hk => absurd hk (Nat.not_lt_zero k), fun i hi => ?_, rfl⟩
    have hi1 : i ≠ ROOTINO := by
      have : ROOTINO = 1 := rfl
      simp only [List.length_nil] at hi
      omega
    rw [(hsame3 i hi1).1, (hsame2 i hi1).1, (hsame1 i hi1).1, hblank]
  exact hloop v3 st4 hbuilt h3

theorem Mkfs.main_of_finish (hlayout : MkfsLayout sb) (hroom : RoomFor sb files)
    (hfresh : ∀ b, FSSIZE ≤ b → b < sb.size → st.sector b = fun _ => 0)
    (hname : ∀ f ∈ files, f.name.length < DIRSIZE ∨ E .nameLength)
    (hsize : ∀ f ∈ files, f.data.length ≤ MAXFILE * BSIZE ∨ E .maxFile)
    (hfinish : ∀ v fb st', Built sb files v fb → ImageAt sb v fb (files.length + 2) st' →
      wp (do
        let din ← Mkfs.readInode ROOTINO
        Mkfs.writeInode ROOTINO
          { din with size := UInt32.ofNat ((din.size.toNat / BSIZE + 1) * BSIZE) }
        let s ← get
        Mkfs.allocateBlock s.freeBlock Mkfs.superBlock.bmapstart.toNat) Q E st') :
    wp (Mkfs.main files) Q E st := by
  have hone : NMETA + 1 ≤ sb.size := by
    refine le_trans ?_ hroom.blocks
    have hpos : blocksOf (DIRENTSIZE * 2) ≤ blocksOf (DIRENTSIZE * (files.length + 2)) :=
      blocksOf_mono (Nat.mul_le_mul_left _ (by omega))
    have : blocksOf (DIRENTSIZE * 2) = 1 := rfl
    unfold imageBlocks
    omega
  refine Mkfs.main_of_loop hlayout hone hfresh fun v0 st0 hbuilt h0 => ?_
  rw [wp_bind]
  refine wp_mono (wp_forM (I := fun pre st' => ∃ v fb, Built sb pre v fb ∧
    ImageAt sb v fb (pre.length + 2) st') ?_ ⟨v0, _, hbuilt, h0⟩) ?_ fun _ h => h
  · rintro pre f post hl st' ⟨v, fb, hb, hs⟩
    have hf : f ∈ files := by simp [hl]
    have hlen : pre.length + 1 + post.length = files.length := by simp [hl]; omega
    have hcount := hroom.count
    exact Mkfs.addFile_wp (by omega) (hname f hf) (hsize f hf)
      (Or.inl ((imageBlocks_le pre f post).trans (hl ▸ hroom.blocks))) hb hs fun v' fb' st'' hb' _ hs' =>
      ⟨v', fb', hb', hs'⟩
  · rintro _ st' ⟨v, fb, hb, hs⟩
    exact hfinish v fb st' hb hs

theorem Fits.room (hfit : Fits files) : RoomFor mkfsSuper files :=
  ⟨by have : files.length ≤ 198 := hfit.count
      change files.length + 2 ≤ 200
      omega, hfit.blocks⟩

theorem Mkfs.main_wp (hfit : Fits files) :
    wp (Mkfs.main files) (fun _ st' => ImageOk files st'.sector) E st :=
  Mkfs.main_of_finish mkfsSuper_layout hfit.room (fun _ hb hlt => absurd hlt (Nat.not_lt.2 hb))
    (fun f hf => Or.inl (hfit.short f hf)) (fun f hf => Or.inl (hfit.size f hf))
    fun _ _ _ hbuilt h => wp_mono (Mkfs.finish_wp hfit.room hbuilt h) (fun _ _ h => h.1) fun _ h => h

end Build

end Octopos
