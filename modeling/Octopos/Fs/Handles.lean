import Octopos.Fs.Buffers
import Octopos.Fs.TableProof
import Octopos.Fs.Tree

/-!
# Handles of a running call

`FsAt` is the state of the file system in the middle of a system call: the disk is well formed, the
inode table counts the handles of processes (`B`) and of the call (`F`), which has locked the slots
`K`, and the call holds no buffer.
-/

namespace Octopos

def View.tree (v : View) : Tree where
  type i := (v.node i).type
  nlink i := (v.node i).nlink
  entry d k :=
    if (v.node d).type = .directory ∧ DIRENTSIZE * k < (v.node d).size.toNat ∧
      (v.entry d k).inum ≠ 0 then v.entry d k else DirEntry.empty

theorem View.tree_type (v : View) (i : ℕ) : v.tree.type i = (v.node i).type := rfl

theorem View.tree_nlink (v : View) (i : ℕ) : v.tree.nlink i = (v.node i).nlink := rfl

theorem OnlyNode.tree {i : ℕ} {v v' : View} (h : OnlyNode i v v') :
    v'.tree = ⟨upd v.tree.type i (v'.node i).type, upd v.tree.nlink i (v'.node i).nlink,
      upd v.tree.entry i (v'.tree.entry i)⟩ := by
  have hfun {β : Type} (f f' : ℕ → β) (hf : ∀ j ≠ i, f' j = f j) : f' = upd f i (f' i) := by
    funext j
    by_cases hj : j = i
    · rw [hj, upd_self]
    · rw [upd_of_ne hj, hf j hj]
  have htype := hfun v.tree.type v'.tree.type fun j hj => by
    rw [View.tree_type, View.tree_type, (h j hj).1]
  have hnlink := hfun v.tree.nlink v'.tree.nlink fun j hj => by
    rw [View.tree_nlink, View.tree_nlink, (h j hj).1]
  have hentry := hfun v.tree.entry v'.tree.entry fun j hj => by
    unfold View.tree View.entry
    dsimp only
    rw [(h j hj).1, (h j hj).2.1]
  rw [← hentry, ← View.tree_type, ← View.tree_nlink, ← htype, ← hnlink]

theorem View.entry_of_ne {v : View} {d : ℕ} (h : (v.node d).type ≠ .directory) :
    v.tree.entry d = fun _ => DirEntry.empty :=
  funext fun _ => if_neg fun hd => h hd.1

theorem FreedNode.tree {sb : SuperBlock} {i : ℕ} {v v' : View} (h : FreedNode sb i v v') :
    v'.tree = v.tree.freeNode i := by
  have hnlink : upd v.tree.nlink i (v'.node i).nlink = v.tree.nlink := by
    rw [(h.ok.free i h.type).2.2, ← h.was.2]
    exact upd_eq_self ..
  rw [h.others.tree, h.type, hnlink, View.entry_of_ne (by rw [h.type]; decide)]
  rfl

/-- The file system in the middle of a system call. -/
structure FsAt (sb : SuperBlock) (v : View) (B F : Multiset Inode) (K : Finset (Fin NINODE))
    (M : Mode) (s : Fs) : Prop where
  ok : FsOk sb v
  view : sb.view s.disk = v
  table : TableOk sb v s.itable B F K
  held : Holding M (fun _ => 0) s
  types : ∀ ip ∈ B, (v.node ip.inum).type = M.types ip.inum

/-- The call runs inside of an operation, whose transaction may become too big. -/
structure InOp (M : Mode) (E : FsPanic → Prop) : Prop where
  ops : 0 < M.ops
  noBuffers : E .noBuffers
  tooBig : E .tooBig

theorem InOp.log {M : Mode} {E : FsPanic → Prop} (h : InOp M E) :
    LogPanics fun e => M.Escapes e → E e :=
  ⟨fun _ => h.noBuffers, fun _ => h.tooBig, fun he => absurd (he rfl) h.ops.ne'⟩

/-- What giving back a handle of inode `i` does to the disk: the inode may be freed, if it has no
links and is not among the handles `H`. -/
def Released (sb : SuperBlock) (i : ℕ) (H : Multiset Inode) (v v' : View) : Prop :=
  v' = v ∨ FreedNode sb i v v' ∧ ∀ ip ∈ H, ip.inum ≠ i

section Handles

variable {sb : SuperBlock} {v v' : View} {B F : Multiset Inode} {K : Finset (Fin NINODE)} {M : Mode}
  {E : FsPanic → Prop} {s : Fs} {ip : Inode}
variable {t : Fin NINODE → Slot} {Q : PUnit → Fs → Prop}

theorem Released.eq {i : ℕ} {H : Multiset Inode} (h : Released sb i H v v')
    (hi : (v.node i).nlink ≠ 0) : v' = v :=
  h.resolve_right fun hf => hi hf.1.was.2

theorem FsAt.at (h : FsAt sb v B F K M s) : At sb v s.itable s := ⟨h.view, rfl⟩

theorem FsAt.of_table (hok : FsOk sb v) (hat : At sb v t s) (ht : TableOk sb v t B F K)
    (hh : Holding M (fun _ => 0) s) (htypes : ∀ ip ∈ B, (v.node ip.inum).type = M.types ip.inum) :
    FsAt sb v B F K M s := by
  obtain ⟨hview, rfl⟩ := hat
  exact ⟨hok, hview, ht, hh, htypes⟩

theorem FsAt.inum_lt (h : FsAt sb v B F K M s) (hip : ip ∈ B + F) : ip.inum < sb.ninodes := by
  rw [← h.table.handle ip hip]
  exact (h.table.slot ip.id).range (h.table.ref_pos hip)

theorem FsAt.synced (h : FsAt sb v B F K M s) (hip : ip ∈ B + F) (hK : ip.id ∈ K) :
    Synced v s.itable ip :=
  (h.table.synced_of_locked hip hK).1

theorem FsAt.ref_of_locked (h : FsAt sb v B F K M s) {id : Fin NINODE} (hid : id ∈ K) :
    0 < inSlot id B + inSlot id F := by
  have hr := ((h.table.slot id).loaded hid).1
  rwa [(h.table.slot id).refs] at hr

theorem FsAt.dirty (h : FsAt sb v B F K M s) : FsAt sb v B F K M.dirty s :=
  ⟨h.ok, h.view, h.table, h.held.dirty _, h.types⟩

theorem Inode.get_fs {inum : ℕ} (hi : inum < sb.ninodes) {Q : Except FsError Inode → Fs → Prop}
    (h : FsAt sb v B F K M s)
    (hok : ∀ ip s', ip.inum = inum → (Full B F → ∃ jp ∈ B + F, jp.inum = inum) →
      FsAt sb v B (ip ::ₘ F) K M s' → Q (.ok ip) s')
    (herr : ∀ e s', Full B F → (∀ jp ∈ B + F, jp.inum ≠ inum) → FsAt sb v B F K M s' →
      Q (.error e) s') : wp (get inum) Q E s :=
  Holding.wp (Inode.get_held h.held fun _ _ hh => hh) (Inode.get_wp hi h.table h.at
    (fun ip _ s' hinum hfull hs' ht hh => hok ip s' hinum hfull (.of_table h.ok hs' ht hh h.types))
    fun e s' hfull hno hs' hh => herr e s' hfull hno (.of_table h.ok hs' h.table hh h.types))

theorem Inode.dup_fs (hip : ip ∈ B + F) {Q : Inode → Fs → Prop} (h : FsAt sb v B F K M s)
    (hQ : ∀ s', FsAt sb v B (ip ::ₘ F) K M s' → Q ip s') : wp (dup ip) Q E s :=
  Holding.wp (M := M) (Inode.dup_held h.held fun _ hh => hh) (Inode.dup_wp h.table hip h.at
    fun _ s' hs' ht hh => hQ s' (.of_table h.ok hs' ht hh h.types))

theorem Inode.lock_fs (hip : ip ∈ B + F) (hlocked : ip.id ∈ K → E .deadlock)
    (hfree : (v.node ip.inum).type = .free → E .noType) (h : FsAt sb v B F K M s)
    (hQ : ∀ s', ip.id ∉ K → (v.node ip.inum).type ≠ .free → FsAt sb v B F (insert ip.id K) M s' →
      Q ⟨⟩ s') : wp (lock sb ip) Q E s :=
  Holding.wp (Inode.lock_held h.held fun _ hh => hh) (Inode.lock_wp h.table hip
    (fun hk _ => hlocked hk) (fun hf _ => hfree hf) h.at
    fun _ s' hK htype hs' ht hh => hQ s' hK htype (.of_table h.ok hs' ht hh h.types))

theorem Inode.unlock_fs (h : FsAt sb v B F K M s)
    (hQ : ∀ s', FsAt sb v B F (K.erase ip.id) M s' → Q ⟨⟩ s') : wp (unlock ip) Q E s :=
  Holding.wp (M := M) (modifySlot_held h.held fun _ hh => hh) (Inode.unlock_wp h.table h.at
    fun _ s' hs' ht hh => hQ s' (.of_table h.ok hs' ht hh h.types))

theorem getInner_fs {Q : InodeInner → Fs → Prop} (hip : ip ∈ B + F) (hK : ip.id ∈ K)
    (h : FsAt sb v B F K M s) (hQ : Q (v.node ip.inum) s) : wp (getInner ip.id) Q E s :=
  getInner_wp h.at (by rw [h.synced hip hK]; exact hQ)

theorem Inode.put_fs (hsb : sb.Valid)
    (hop : (v.node ip.inum).nlink = 0 → (∀ jp ∈ B, jp.inum ≠ ip.inum) → InOp M E)
    (hK : ip.id ∈ K → 0 < inSlot ip.id B + inSlot ip.id F) (h : FsAt sb v B (ip ::ₘ F) K M s)
    (hQ : ∀ v' s', Released sb ip.inum (B + F) v v' →
      ((s.itable ip.id).valid = true → (v.node ip.inum).nlink = 0 →
        (∀ jp ∈ B + F, jp.inum ≠ ip.inum) → (v'.node ip.inum).type = .free) →
      FsAt sb v' B F K M s' → Q ⟨⟩ s') : wp (put sb ip) Q E s := by
  have hip : ip ∈ B + ip ::ₘ F := by simp
  have hmem {jp : Inode} (hjp : jp ∈ B + F) : jp ∈ B + ip ::ₘ F := by
    rw [Multiset.add_cons]
    exact Multiset.mem_cons_of_mem hjp
  have hlog (h0 : (v.node ip.inum).nlink = 0) (hB : inSlot ip.id B = 0) : InOp M E := by
    refine hop h0 fun jp hjp he => ?_
    have hid := h.table.id_eq (hmem (Multiset.mem_add.2 (Or.inl hjp))) hip he
    have := inSlot_pos hjp
    rw [hid, hB] at this
    exact absurd this (Nat.lt_irrefl 0)
  refine Holding.wp (Inode.put_held h.held fun _ hh => hh) (Inode.put_wp hsb
    (fun h0 hB => (hlog h0 hB).log) h.ok h.table hK h.at (fun t' s' hwhy hs' ht hh => ?_)
    fun v' t' s' hfreed hB hF hs' ht hh => ?_)
  · refine hQ v s' (Or.inl rfl) (fun hv h0 hno => ?_) (.of_table h.ok hs' ht hh h.types)
    have hpos := hwhy hv h0
    rw [inSlot, inSlot, ← Multiset.countP_add] at hpos
    obtain ⟨jp, hjp, hid⟩ := Multiset.countP_pos.1 hpos
    refine absurd ?_ (hno jp hjp)
    rw [← h.table.handle jp (hmem hjp), hid, h.table.handle ip hip]
  · have hne (jp : Inode) (hjp : jp ∈ B + F) : jp.inum ≠ ip.inum := by
      intro he
      have hid := h.table.id_eq (hmem hjp) hip he
      rcases Multiset.mem_add.1 hjp with hjp | hjp <;> have := inSlot_pos hjp <;>
        rw [hid] at this <;> omega
    refine hQ v' s' (Or.inr ⟨hfreed, hne⟩) (fun _ _ _ => hfreed.type) (.of_table hfreed.ok hs' ht hh fun jp hjp => ?_)
    rw [(hfreed.others _ (hne jp (Multiset.mem_add.2 (Or.inl hjp)))).1]
    exact h.types jp hjp

/-- An inode that was locked is freed if it has neither links nor other references. -/
theorem Inode.unlockPut_fs (hsb : sb.Valid)
    (hop : (v.node ip.inum).nlink = 0 → (∀ jp ∈ B, jp.inum ≠ ip.inum) → InOp M E) (hK : ip.id ∈ K)
    (h : FsAt sb v B (ip ::ₘ F) K M s)
    (hQ : ∀ v' s', Released sb ip.inum (B + F) v v' →
      ((v.node ip.inum).nlink = 0 → (∀ jp ∈ B + F, jp.inum ≠ ip.inum) →
        (v'.node ip.inum).type = .free) → FsAt sb v' B F (K.erase ip.id) M s' → Q ⟨⟩ s') :
    wp (unlockPut sb ip) Q E s := by
  have hvalid : wp (unlock ip) (fun _ s' => (s'.itable ip.id).valid = true) E s := by
    refine wp_modify.2 ?_
    unfold Fs.setSlot
    dsimp only
    rw [upd_self]
    exact ((h.table.slot ip.id).loaded hK).2
  unfold unlockPut
  rw [wp_bind]
  refine wp_both hvalid (Inode.unlock_fs (E := E)
    (Q := fun _ s' => FsAt sb v B (ip ::ₘ F) (K.erase ip.id) M s') h fun _ hs' => hs')
    (fun _ s' hv hs' => ?_) fun _ he _ => he
  exact Inode.put_fs hsb hop (fun hk => by simp at hk) hs' fun v' s'' hr hfree => hQ v' s'' hr (hfree hv)

/-! ## Changing a locked inode -/

theorem TableOk.setInner (h : TableOk sb v t B F K) (hip : ip ∈ B + F) (hK : ip.id ∈ K)
    (hview : ∀ j ≠ ip.inum, v'.node j = v.node j)
    (htype : (v'.node ip.inum).type = (v.node ip.inum).type) :
    TableOk sb v' (setInner t ip (v'.node ip.inum)) B F K := by
  have hs := h.slot ip.id
  obtain ⟨hr, hv⟩ := hs.loaded hK
  have hi := h.handle ip hip
  have hfree := (h.synced_of_locked hip hK).2
  refine h.setSlot (fun j hj hjr => ?_) ⟨hs.refs, hs.range, fun _ _ => ?_, hs.locked, hs.loaded⟩
    (fun j _ => ⟨rfl, Iff.rfl⟩)
    (fun jp hjp => ⟨fun hid => by rw [← h.handle jp hjp, hid], fun _ => hjp⟩)
    (fun _ j hj hjr he => hj (h.unique j ip.id hjr hr he.symm)) fun jp hjp hid => ?_
  · exact hview _ fun he => hj (h.unique j ip.id hjr hr (he.trans hi.symm))
  · rw [hi, htype]
    exact ⟨rfl, hfree⟩
  · have hjp' : jp ∈ B + F := Multiset.mem_add.2 (Or.inl hjp)
    rw [← h.handle jp hjp', hid, hi, htype]
    exact hfree

theorem FsAt.setInner (h : FsAt sb v B F K M s) (hip : ip ∈ B + F) (hK : ip.id ∈ K) {s' : Fs}
    (hok : FsOk sb v') (hview : ∀ j ≠ ip.inum, v'.node j = v.node j)
    (htype : (v'.node ip.inum).type = (v.node ip.inum).type)
    (hs' : At sb v' (Octopos.setInner s.itable ip (v'.node ip.inum)) s')
    (hh : Holding M (fun _ => 0) s') : FsAt sb v' B F K M s' := by
  refine .of_table hok hs' (h.table.setInner hip hK hview htype) hh fun jp hjp => ?_
  rw [← h.types jp hjp]
  by_cases hj : jp.inum = ip.inum
  · rw [hj, htype]
  · rw [hview _ hj]

end Handles

end Octopos
