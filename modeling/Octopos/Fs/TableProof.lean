import Octopos.Fs.Consistent
import Octopos.Fs.Directory
import Mathlib.Data.Multiset.Count

/-!
# The inode table

References to inodes are counted by the slots of the inode table. The handles that processes and
open files hold (`B`) and the handles that the running system call holds (`F`) are bags of handles,
and a slot has as many references as there are handles in it (`TableOk`). `K` is the set of locked
slots.
-/

namespace Octopos

theorem entry_in_block {offset : ℕ} (h : offset % DIRENTSIZE = 0) :
    offset % BSIZE + DIRENTSIZE ≤ BSIZE := by
  have hB : BSIZE = 1024 := rfl
  have hD : DIRENTSIZE = 16 := rfl
  rw [hD] at h ⊢
  rw [hB]
  omega

/-- Entry `k` of directory `d`. -/
def View.entry (v : View) (d k : ℕ) : DirEntry := DirEntry.load (v.byte d) (DIRENTSIZE * k)

/-- A consistent file system, in which free inodes are blank and directories hold entries. -/
structure FsOk (sb : SuperBlock) (v : View) : Prop where
  disk : DiskOk sb v
  free : ∀ i, (v.node i).type = .free →
    (v.node i).addrs = (fun _ => 0) ∧ (v.node i).size = 0 ∧ (v.node i).nlink = 0
  dirSize : ∀ d, (v.node d).type = .directory → (v.node d).size.toNat % DIRENTSIZE = 0
  entry : ∀ d, (v.node d).type = .directory → ∀ k, DIRENTSIZE * k < (v.node d).size.toNat →
    (v.entry d k).inum.toNat < sb.ninodes

/-- A change of one inode keeps the file system well formed if that inode is. -/
theorem FsOk.of_onlyNode {sb : SuperBlock} {v v' : View} {i : ℕ} (h : FsOk sb v)
    (honly : OnlyNode i v v') (hdisk : DiskOk sb v')
    (hfree : (v'.node i).type = .free →
      (v'.node i).addrs = (fun _ => 0) ∧ (v'.node i).size = 0 ∧ (v'.node i).nlink = 0)
    (hdir : (v'.node i).type = .directory → (v'.node i).size.toNat % DIRENTSIZE = 0 ∧
      ∀ k, DIRENTSIZE * k < (v'.node i).size.toNat → (v'.entry i k).inum.toNat < sb.ninodes) :
    FsOk sb v' where
  disk := hdisk
  free j hj := by
    by_cases hji : j = i
    · subst hji
      exact hfree hj
    · rw [(honly j hji).1] at hj ⊢
      exact h.free j hj
  dirSize j hj := by
    by_cases hji : j = i
    · subst hji
      exact (hdir hj).1
    · rw [(honly j hji).1] at hj ⊢
      exact h.dirSize j hj
  entry j hj k hk := by
    by_cases hji : j = i
    · subst hji
      exact (hdir hj).2 k hk
    · unfold View.entry
      rw [(honly j hji).1] at hj hk
      rw [(honly j hji).2.1]
      exact h.entry j hj k hk

/-- Inode `i`, which has no links, has been freed. -/
structure FreedNode (sb : SuperBlock) (i : ℕ) (v v' : View) : Prop where
  ok : FsOk sb v'
  others : OnlyNode i v v'
  type : (v'.node i).type = .free
  was : (v.node i).type ≠ .free ∧ (v.node i).nlink = 0
  room : freeBlocks sb v.bit ≤ freeBlocks sb v'.bit

/-- Number of handles in a bag that are in slot `id`. -/
def inSlot (id : Fin NINODE) (H : Multiset Inode) : ℕ := H.countP fun ip => ip.id = id

@[simp] theorem inSlot_zero (id : Fin NINODE) : inSlot id 0 = 0 := rfl

theorem inSlot_cons (id : Fin NINODE) (ip : Inode) (H : Multiset Inode) :
    inSlot id (ip ::ₘ H) = inSlot id H + if ip.id = id then 1 else 0 :=
  Multiset.countP_cons _ _ _

theorem inSlot_pos {ip : Inode} {H : Multiset Inode} (h : ip ∈ H) : 0 < inSlot ip.id H :=
  Multiset.countP_pos.2 ⟨ip, h, rfl⟩

theorem inSlot_cons_of_ne {id : Fin NINODE} {ip : Inode} (h : ip.id ≠ id) (H : Multiset Inode) :
    inSlot id (ip ::ₘ H) = inSlot id H := by
  rw [inSlot_cons, if_neg h, add_zero]

theorem inSlot_cons_self (ip : Inode) (H : Multiset Inode) :
    inSlot ip.id (ip ::ₘ H) = inSlot ip.id H + 1 := by
  rw [inSlot_cons, if_pos rfl]

def Full (B F : Multiset Inode) : Prop := ∀ id, 0 < inSlot id B + inSlot id F

def Roomy (B F : Multiset Inode) : Prop := ∀ ip, ¬Full B (ip ::ₘ F)

theorem Roomy.not_full {B F : Multiset Inode} (h : Roomy B F) : ¬Full B F := fun hfull =>
  h ⟨0, 0⟩ fun id => (hfull id).trans_le (by rw [inSlot_cons]; omega)

/-- A slot with `b` handles outside of and `f` handles inside of the running call, which has locked
it if `k` holds. -/
structure SlotOk (sb : SuperBlock) (v : View) (x : Slot) (b f : ℕ) (k : Prop) : Prop where
  refs : x.ref = b + f
  range : 0 < x.ref → x.inum < sb.ninodes
  synced : 0 < x.ref → x.valid = true →
    x.inner = v.node x.inum ∧ (v.node x.inum).type ≠ .free
  locked : x.locked = true ↔ k
  loaded : k → 0 < x.ref ∧ x.valid = true

/-- The inode table agrees with the disk and counts all handles. -/
structure TableOk (sb : SuperBlock) (v : View) (t : Fin NINODE → Slot) (B F : Multiset Inode)
    (K : Finset (Fin NINODE)) : Prop where
  slot : ∀ id, SlotOk sb v (t id) (inSlot id B) (inSlot id F) (id ∈ K)
  handle : ∀ ip ∈ B + F, (t ip.id).inum = ip.inum
  unique : ∀ id id', 0 < (t id).ref → 0 < (t id').ref → (t id).inum = (t id').inum → id = id'
  base : ∀ ip ∈ B, (v.node ip.inum).type ≠ .free

section Table

variable {sb : SuperBlock} {v v' : View} {t : Fin NINODE → Slot} {B F F' : Multiset Inode}
  {K K' : Finset (Fin NINODE)} {E : FsPanic → Prop} {s : Fs} {ip : Inode}
variable {id : Fin NINODE} {x : Slot} {Q : PUnit → Fs → Prop}

theorem TableOk.ref_pos (h : TableOk sb v t B F K) (hip : ip ∈ B + F) : 0 < (t ip.id).ref := by
  have hrefs := (h.slot ip.id).refs
  rcases Multiset.mem_add.1 hip with hip | hip <;> have := inSlot_pos hip <;> omega

theorem TableOk.synced_of_locked (h : TableOk sb v t B F K) (hip : ip ∈ B + F) (hK : ip.id ∈ K) :
    Synced v t ip ∧ (v.node ip.inum).type ≠ .free := by
  obtain ⟨hr, hv⟩ := (h.slot ip.id).loaded hK
  have := (h.slot ip.id).synced hr hv
  rwa [h.handle ip hip] at this

theorem TableOk.exists_handle (h : TableOk sb v t B F K) (hr : 0 < (t id).ref) :
    ∃ ip ∈ B + F, ip.inum = (t id).inum := by
  have hrefs := (h.slot id).refs
  have hpos : 0 < inSlot id (B + F) := by
    rw [inSlot, Multiset.countP_add]
    exact hrefs ▸ hr
  obtain ⟨ip, hip, rfl⟩ := Multiset.countP_pos.1 hpos
  exact ⟨ip, hip, (h.handle ip hip).symm⟩

theorem TableOk.id_eq (h : TableOk sb v t B F K) {ip' : Inode} (hip : ip ∈ B + F)
    (hip' : ip' ∈ B + F) (heq : ip.inum = ip'.inum) : ip.id = ip'.id := by
  refine h.unique _ _ (h.ref_pos hip) (h.ref_pos hip') ?_
  rw [h.handle ip hip, h.handle ip' hip', heq]

theorem SlotOk.congr {b f : ℕ} {k : Prop} (h : SlotOk sb v x b f k)
    (hv : 0 < x.ref → v'.node x.inum = v.node x.inum) : SlotOk sb v' x b f k where
  refs := h.refs
  range := h.range
  synced hr hvalid := by
    rw [hv hr]
    exact h.synced hr hvalid
  locked := h.locked
  loaded := h.loaded

/-- Changing one slot, and the disk where only this slot refers to it: the new slot is good, and the
other slots have the handles and locks they had. -/
theorem TableOk.setSlot (h : TableOk sb v t B F K)
    (hview : ∀ j ≠ id, 0 < (t j).ref → v'.node (t j).inum = v.node (t j).inum)
    (hslot : SlotOk sb v' x (inSlot id B) (inSlot id F') (id ∈ K'))
    (hrest : ∀ j ≠ id, inSlot j F' = inSlot j F ∧ (j ∈ K' ↔ j ∈ K))
    (hhandle : ∀ ip ∈ B + F', (ip.id = id → x.inum = ip.inum) ∧ (ip.id ≠ id → ip ∈ B + F))
    (hunique : 0 < x.ref → ∀ j ≠ id, 0 < (t j).ref → x.inum ≠ (t j).inum)
    (hbase : ∀ ip ∈ B, ip.id = id → (v'.node ip.inum).type ≠ .free) :
    TableOk sb v' (upd t id x) B F' K' where
  slot j := by
    by_cases hj : j = id
    · subst hj
      rwa [upd_self]
    · obtain ⟨h1, h2⟩ := hrest j hj
      rw [upd_of_ne hj, h1, propext h2]
      exact (h.slot j).congr (hview j hj)
  handle ip hip := by
    obtain ⟨h1, h2⟩ := hhandle ip hip
    by_cases hj : ip.id = id
    · rw [hj, upd_self]
      exact h1 hj
    · rw [upd_of_ne hj]
      exact h.handle ip (h2 hj)
  unique j l hj hl he := by
    by_cases hjid : j = id <;> by_cases hlid : l = id
    · rw [hjid, hlid]
    · subst hjid
      rw [upd_self] at hj he
      rw [upd_of_ne hlid] at hl he
      exact absurd he (hunique hj l hlid hl)
    · subst hlid
      rw [upd_self] at hl he
      rw [upd_of_ne hjid] at hj he
      exact absurd he.symm (hunique hl j hjid hj)
    · rw [upd_of_ne hjid] at hj he
      rw [upd_of_ne hlid] at hl he
      exact h.unique j l hj hl he
  base ip hip := by
    by_cases hj : ip.id = id
    · exact hbase ip hip hj
    · have hmem : ip ∈ B + F := Multiset.mem_add.2 (Or.inl hip)
      have := hview ip.id hj (h.ref_pos hmem)
      rw [h.handle ip hmem] at this
      rw [this]
      exact h.base ip hip

theorem inSlot_rest (ip : Inode) (hip : ip.id = id) (F : Multiset Inode) :
    ∀ j ≠ id, inSlot j (ip ::ₘ F) = inSlot j F :=
  fun j hj => inSlot_cons_of_ne (by rw [hip]; exact Ne.symm hj) F

/-! ## Getting a handle -/

theorem TableOk.addRef (h : TableOk sb v t B F K) (ip : Inode) (hr : 0 < (t ip.id).ref)
    (hi : (t ip.id).inum = ip.inum) :
    TableOk sb v (upd t ip.id { t ip.id with ref := (t ip.id).ref + 1 }) B (ip ::ₘ F) K := by
  have hs := h.slot ip.id
  refine h.setSlot (fun _ _ _ => rfl) ⟨?_, fun _ => hs.range hr, fun _ => hs.synced hr, hs.locked,
    fun hk => ⟨Nat.succ_pos _, (hs.loaded hk).2⟩⟩
    (fun j hj => ⟨inSlot_rest ip rfl F j hj, Iff.rfl⟩) (fun jp hjp => ?_)
    (fun _ j hj hjr he => hj (h.unique j ip.id hjr hr he.symm)) fun jp hjp _ => h.base jp hjp
  · have := hs.refs
    rw [inSlot_cons_self]
    dsimp only
    omega
  · rw [Multiset.add_cons, Multiset.mem_cons] at hjp
    rcases hjp with rfl | hjp
    · exact ⟨fun _ => hi, fun hne => absurd rfl hne⟩
    · exact ⟨fun hid => by rw [← h.handle jp hjp, hid], fun _ => hjp⟩

theorem TableOk.newRef (h : TableOk sb v t B F K) (ip : Inode) (hr : (t ip.id).ref = 0)
    (hi : ip.inum < sb.ninodes) (hnew : ∀ id, 0 < (t id).ref → (t id).inum ≠ ip.inum) :
    TableOk sb v (upd t ip.id { t ip.id with ref := 1, inum := ip.inum, valid := false }) B
      (ip ::ₘ F) K := by
  have hs := h.slot ip.id
  have hrefs := hs.refs
  have hK : ip.id ∉ K := fun hk => by have := (hs.loaded hk).1; omega
  refine h.setSlot (fun _ _ _ => rfl) ⟨?_, fun _ => hi, fun _ hv => (by cases hv), hs.locked,
    fun hk => absurd hk hK⟩ (fun j hj => ⟨inSlot_rest ip rfl F j hj, Iff.rfl⟩) (fun jp hjp => ?_)
    (fun _ j _ hjr he => hnew j hjr he.symm) fun jp hjp _ => h.base jp hjp
  · rw [inSlot_cons_self]
    dsimp only
    omega
  · rw [Multiset.add_cons, Multiset.mem_cons] at hjp
    rcases hjp with rfl | hjp
    · exact ⟨fun _ => rfl, fun hne => absurd rfl hne⟩
    · refine ⟨fun hid => ?_, fun _ => hjp⟩
      have := h.ref_pos hjp
      rw [hid] at this
      omega

/-- `Inode::get` returns a new handle, unless the table is full of other inodes. -/
theorem Inode.get_wp {inum : ℕ} (hi : inum < sb.ninodes) (ht : TableOk sb v t B F K)
    {Q : Except FsError Inode → Fs → Prop} (h : At sb v t s)
    (hok : ∀ ip t' s', ip.inum = inum → (Full B F → ∃ jp ∈ B + F, jp.inum = inum) → At sb v t' s' →
      TableOk sb v t' B (ip ::ₘ F) K → Q (.ok ip) s')
    (herr : ∀ e s', Full B F → (∀ jp ∈ B + F, jp.inum ≠ inum) → At sb v t s' → Q (.error e) s') :
    wp (get inum) Q E s := by
  unfold get
  rw [wp_bind, wp_get, h.table]
  cases hfind : (List.finRange NINODE).find? fun id => 0 < (t id).ref && (t id).inum == inum with
  | some id =>
    have hid := List.find?_some hfind
    simp only [Bool.and_eq_true, decide_eq_true_eq, beq_iff_eq] at hid
    dsimp only
    rw [wp_bind]
    refine modifySlot_wp h fun s' hs' => ?_
    exact hok ⟨id, inum⟩ _ s' rfl (fun _ => hid.2 ▸ ht.exists_handle hid.1) hs' (ht.addRef ⟨id, inum⟩ hid.1 hid.2)
  | none =>
    have hnew (id : Fin NINODE) (hr : 0 < (t id).ref) : (t id).inum ≠ inum := by
      have := List.find?_eq_none.1 hfind id (List.mem_finRange id)
      simp only [Bool.and_eq_true, decide_eq_true_eq, beq_iff_eq, not_and] at this
      exact this hr
    dsimp only
    cases hfree : (List.finRange NINODE).find? fun id => (t id).ref == 0 with
    | some id =>
      have hid := List.find?_some hfree
      rw [beq_iff_eq] at hid
      dsimp only
      rw [wp_bind]
      refine modifySlot_wp h fun s' hs' => ?_
      refine hok ⟨id, inum⟩ _ s' rfl (fun hfull => ?_) hs' (ht.newRef ⟨id, inum⟩ hid hi hnew)
      have := hfull id
      have := (ht.slot id).refs
      omega
    | none =>
      refine herr _ s (fun id => ?_) (fun jp hjp => ?_) h
      · have hne := List.find?_eq_none.1 hfree id (List.mem_finRange id)
        rw [beq_iff_eq, (ht.slot id).refs] at hne
        omega
      · rw [← ht.handle jp hjp]
        exact hnew jp.id (ht.ref_pos hjp)

theorem Inode.dup_wp (ht : TableOk sb v t B F K) (hip : ip ∈ B + F) {Q : Inode → Fs → Prop}
    (h : At sb v t s) (hQ : ∀ t' s', At sb v t' s' → TableOk sb v t' B (ip ::ₘ F) K → Q ip s') :
    wp (dup ip) Q E s := by
  unfold dup
  rw [wp_bind]
  exact modifySlot_wp h fun s' hs' => hQ _ s' hs' (ht.addRef ip (ht.ref_pos hip) (ht.handle ip hip))

/-! ## Locks -/

theorem TableOk.lock (h : TableOk sb v t B F K) (hip : ip ∈ B + F)
    (htype : (v.node ip.inum).type ≠ .free)
    (hx : x = { t ip.id with locked := true, valid := true, inner := v.node ip.inum }) :
    TableOk sb v (upd t ip.id x) B F (insert ip.id K) := by
  subst hx
  have hs := h.slot ip.id
  have hr := h.ref_pos hip
  have hi := h.handle ip hip
  refine h.setSlot (fun _ _ _ => rfl) ⟨hs.refs, hs.range, fun _ _ => ?_, ?_, fun _ => ⟨hr, rfl⟩⟩
    (fun j hj => ⟨rfl, by simp [hj]⟩)
    (fun jp hjp => ⟨fun hid => by rw [← h.handle jp hjp, hid], fun _ => hjp⟩)
    (fun _ j hj hjr he => hj (h.unique j ip.id hjr hr he.symm)) fun jp hjp _ => h.base jp hjp
  · rw [hi]
    exact ⟨rfl, htype⟩
  · simp

theorem Inode.lock_wp (ht : TableOk sb v t B F K) (hip : ip ∈ B + F)
    (hlocked : ip.id ∈ K → E .deadlock) (hfree : (v.node ip.inum).type = .free → E .noType)
    (h : At sb v t s)
    (hQ : ∀ t' s', ip.id ∉ K → (v.node ip.inum).type ≠ .free → At sb v t' s' →
      TableOk sb v t' B F (insert ip.id K) → Q ⟨⟩ s') : wp (lock sb ip) Q E s := by
  have hs := ht.slot ip.id
  have hr := ht.ref_pos hip
  have hi := ht.handle ip hip
  unfold lock
  rw [wp_bind, wp_get, h.table]
  refine wp_ite (fun hl => hlocked (hs.locked.1 hl)) fun hl => ?_
  have hK : ip.id ∉ K := fun hk => hl (hs.locked.2 hk)
  rw [wp_bind]
  refine modifySlot_wp h fun s1 h1 => ?_
  refine wp_ite (fun hv => ?_) fun hv => ?_
  · obtain ⟨hinner, htype⟩ := hs.synced hr hv
    rw [hi] at hinner htype
    refine hQ _ s1 hK htype h1 (ht.lock hip htype ?_)
    rw [← hinner, ← hv]
  · have hnode : InodeInner.load (s1.disk (sb.inodeBlock ip.inum)) (inodeOffset ip.inum) = v.node ip.inum := by
      rw [← h1.view]
      exact (if_pos (hi ▸ hs.range hr)).symm
    rw [wp_bind]
    refine BCache.read_wp h1 fun s2 _ h2 => ?_
    rw [hnode]
    rw [wp_bind]
    refine modifySlot_wp h2 fun s3 h3 => ?_
    rw [wp_bind]
    refine BCache.release_wp h3 fun s4 h4 => ?_
    refine wp_ite hfree fun htype => hQ _ s4 hK htype h4 ?_
    rw [upd_self, upd_idem]
    exact ht.lock hip htype rfl

theorem TableOk.unlock (h : TableOk sb v t B F K) (ip : Inode) :
    TableOk sb v (upd t ip.id { t ip.id with locked := false }) B F (K.erase ip.id) := by
  have hs := h.slot ip.id
  exact h.setSlot (fun _ _ _ => rfl) ⟨hs.refs, hs.range, hs.synced, by simp, fun hk => by simp at hk⟩
    (fun j hj => ⟨rfl, by simp [hj]⟩)
    (fun jp hjp => ⟨fun hid => by rw [← h.handle jp hjp, hid], fun _ => hjp⟩)
    (fun hr j hj hjr he => hj (h.unique j ip.id hjr hr he.symm)) fun jp hjp _ => h.base jp hjp

theorem Inode.unlock_wp (ht : TableOk sb v t B F K) (h : At sb v t s)
    (hQ : ∀ t' s', At sb v t' s' → TableOk sb v t' B F (K.erase ip.id) → Q ⟨⟩ s') :
    wp (unlock ip) Q E s := by
  unfold unlock
  exact modifySlot_wp h fun s' hs' => hQ _ s' hs' (ht.unlock ip)

/-! ## Giving a handle back -/

theorem TableOk.dropRef (h : TableOk sb v t B (ip ::ₘ F) K)
    (hK : ip.id ∈ K → 0 < inSlot ip.id B + inSlot ip.id F) :
    TableOk sb v (upd t ip.id { t ip.id with ref := (t ip.id).ref - 1 }) B F K := by
  have hs := h.slot ip.id
  have hmem : ip ∈ B + (ip ::ₘ F) := by simp
  have hr := h.ref_pos hmem
  have hcons := inSlot_cons_self ip F
  have hrefs := hs.refs
  refine h.setSlot (fun _ _ _ => rfl) ⟨?_, fun _ => hs.range hr, fun _ => hs.synced hr, hs.locked,
    fun hk => ⟨?_, (hs.loaded hk).2⟩⟩ (fun j hj => ⟨(inSlot_rest ip rfl F j hj).symm, Iff.rfl⟩)
    (fun jp hjp => ?_) (fun _ j hj hjr he => hj (h.unique j ip.id hjr hr he.symm))
    fun jp hjp _ => h.base jp hjp
  · dsimp only
    omega
  · have := hK hk
    dsimp only
    omega
  · have hjp' : jp ∈ B + (ip ::ₘ F) := by
      rw [Multiset.add_cons]
      exact Multiset.mem_cons_of_mem hjp
    exact ⟨fun hid => by rw [← h.handle jp hjp', hid], fun _ => hjp'⟩

theorem TableOk.freeRef (h : TableOk sb v t B (ip ::ₘ F) K) (hK : ip.id ∉ K)
    (hr : (t ip.id).ref = 1) (hview : OnlyNode ip.inum v v') (hx : x.ref = 0)
    (hl : x.locked = false) : TableOk sb v' (upd t ip.id x) B F K := by
  have hs := h.slot ip.id
  have hmem : ip ∈ B + (ip ::ₘ F) := by simp
  have hi := h.handle ip hmem
  have hcons := inSlot_cons_self ip F
  have hrefs := hs.refs
  refine h.setSlot (fun j hj hjr => ?_) ⟨by omega, fun hr' => by omega, fun hr' => by omega, ?_,
    fun hk => absurd hk hK⟩ (fun j hj => ⟨(inSlot_rest ip rfl F j hj).symm, Iff.rfl⟩)
    (fun jp hjp => ?_) (fun hr' => by omega) fun jp hjp hid => ?_
  · refine (hview _ fun he => hj ?_).1
    exact h.unique j ip.id hjr (by omega) (he.trans hi.symm)
  · rw [hl]
    exact iff_of_false (by simp) hK
  · have hjp' : jp ∈ B + (ip ::ₘ F) := by
      rw [Multiset.add_cons]
      exact Multiset.mem_cons_of_mem hjp
    refine ⟨fun hid => ?_, fun _ => hjp'⟩
    rcases Multiset.mem_add.1 hjp with hjp | hjp <;> have := inSlot_pos hjp <;> rw [hid] at this <;>
      omega
  · have := inSlot_pos hjp
    rw [hid] at this
    omega

/-- `Inode::put`: the inode is freed if it has neither links nor other references and has been
loaded. -/
theorem Inode.put_wp (hsb : sb.Valid)
    (hE : (v.node ip.inum).nlink = 0 → inSlot ip.id B = 0 → LogPanics E) (hok : FsOk sb v)
    (ht : TableOk sb v t B (ip ::ₘ F) K) (hK : ip.id ∈ K → 0 < inSlot ip.id B + inSlot ip.id F)
    (h : At sb v t s)
    (hkeep : ∀ t' s', ((t ip.id).valid = true → (v.node ip.inum).nlink = 0 →
        0 < inSlot ip.id B + inSlot ip.id F) → At sb v t' s' → TableOk sb v t' B F K → Q ⟨⟩ s')
    (hfree : ∀ v' t' s', FreedNode sb ip.inum v v' → inSlot ip.id B = 0 → inSlot ip.id F = 0 →
      At sb v' t' s' → TableOk sb v' t' B F K → Q ⟨⟩ s') : wp (put sb ip) Q E s := by
  have hs := ht.slot ip.id
  have hmem : ip ∈ B + (ip ::ₘ F) := by simp
  have hr := ht.ref_pos hmem
  have hi := ht.handle ip hmem
  have hcons := inSlot_cons_self ip F
  have hrefs := hs.refs
  -- the end of `put` for an inode that is not freed
  have hdrop (hwhy : (t ip.id).valid = true → (v.node ip.inum).nlink = 0 → 0 < inSlot ip.id B + inSlot ip.id F) :
      wp (modifySlot ip.id fun x => { x with ref := x.ref - 1 }) Q E s :=
    modifySlot_wp h fun s' hs' => hkeep _ s' hwhy hs' (ht.dropRef hK)
  unfold put
  rw [wp_bind, wp_get, h.table]
  dsimp only
  refine wp_ite (fun h1 => ?_) fun hne => hdrop fun _ _ => by omega
  have hK' : ip.id ∉ K := fun hk => by
    have := hK hk
    omega
  refine wp_ite (fun hl => absurd (hs.locked.1 hl) hK') fun _ => ?_
  refine wp_ite (fun hdead => ?_) fun halive => hdrop fun hv h0 => ?_
  swap
  · rw [← hi, ← (hs.synced hr hv).1] at h0
    exact absurd ⟨hv, h0⟩ halive
  obtain ⟨hinner, htype⟩ := hs.synced hr hdead.1
  rw [hi] at hinner htype
  have hnlink : (v.node ip.inum).nlink = 0 := hinner ▸ hdead.2
  have hinum : ip.inum < sb.ninodes := hi ▸ hs.range hr
  have hE := hE hnlink (by omega)
  rw [wp_bind]
  refine modifySlot_wp h fun s1 h₁ => ?_
  rw [wp_bind]
  refine Inode.trunc_ok hsb hE hinum hok.disk (by simpa [Synced] using hinner) h₁
    fun v2 s2 hdisk honly hnode hroom h2 => ?_
  rw [wp_bind]
  refine modifyInner_wp h2 fun s3 h3 => ?_
  rw [wp_bind]
  refine Inode.update_wp hsb hE hinum h3 fun s4 h4 => ?_
  rw [wp_bind]
  refine modifySlot_wp h4 fun s5 h5 => ?_
  refine modifySlot_wp h5 fun s6 h6 => ?_
  simp only [setInner, upd_self, upd_idem, hnode] at h6
  have haddrs : ({ (v.node ip.inum).cleared with type := .free } : InodeInner).addrs =
      (v2.node ip.inum).addrs := by rw [hnode]
  have hsize : ({ (v.node ip.inum).cleared with type := .free } : InodeInner).size =
      (v2.node ip.inum).size := by rw [hnode]
  have honly' := honly.trans (OnlyNode.setNode haddrs)
  have hself : (v2.setNode ip.inum { (v.node ip.inum).cleared with type := .free }).node ip.inum =
      { (v.node ip.inum).cleared with type := .free } := upd_self ..
  refine hfree _ _ s6 ⟨?_, honly', by rw [hself], ⟨htype, hnlink⟩, hroom⟩ (by omega) (by omega) h6
    (ht.freeRef hK' h1 honly' ?_ ?_)
  · refine hok.of_onlyNode honly' (hdisk.setNode haddrs hsize) (fun _ => ?_) fun hdir => ?_
    · rw [hself]
      exact ⟨rfl, rfl, hnlink⟩
    · rw [hself] at hdir
      cases hdir
  · dsimp only
    omega
  · rfl

end Table

end Octopos
