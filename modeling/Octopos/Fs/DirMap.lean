import Octopos.Fs.DirProof
import Octopos.Fs.Image

/-!
# A directory is a map

The live entries of a directory read as a map from names to inode numbers. `lookup`, `link`, the
write with which `sys_unlink` clears an entry and `is_empty` are the operations of that map as long
as the inode table can hold the inode of the name: an error of `lookup` counts for `link` as absence
of the name (`actsAsMap_iff`). A name of more than `DIRSIZE` bytes is stored cut off, but compared
as a whole (`link_findable_iff`).
-/

namespace Octopos

namespace Tree

variable {T : Tree} {d k : ℕ} {name : Name} {e : DirEntry}

/-- No two entries of the directory store the same name. -/
def Distinct (T : Tree) (d : ℕ) : Prop :=
  ∀ ⦃j k : ℕ⦄ ⦃name : Name⦄, T.Match d j name → T.Match d k name → j = k

open Classical in
/-- What the entries of a directory bind a name to. -/
noncomputable def dirMap (T : Tree) (d : ℕ) (name : Name) : Option UInt16 :=
  if h : ∃ k, T.Match d k name then some (T.entry d (Nat.find h)).inum else none

theorem dirMap_eq_none : T.dirMap d name = none ↔ ∀ k, ¬T.Match d k name := by
  unfold dirMap
  split_ifs with h
  · exact iff_of_false (by simp) fun hall => h.elim hall
  · exact iff_of_true rfl fun k hk => h ⟨k, hk⟩

theorem First.dirMap (h : T.First d k name) : T.dirMap d name = some (T.entry d k).inum := by
  classical
  have hex : ∃ k, T.Match d k name := ⟨k, h.1⟩
  have hfind : Nat.find hex = k := (Nat.find_eq_iff hex).2 h
  unfold Tree.dirMap
  rw [dif_pos hex, hfind]

theorem Distinct.first (hT : T.Distinct d) (h : T.Match d k name) : T.First d k name :=
  ⟨h, fun _ hj hm => hj.ne (hT hm h)⟩

theorem Distinct.dirMap_eq_some (hT : T.Distinct d) {i : UInt16} :
    T.dirMap d name = some i ↔ ∃ k, T.Match d k name ∧ (T.entry d k).inum = i := by
  constructor
  · intro h
    by_cases hex : ∃ k, T.Match d k name
    · obtain ⟨k, hk⟩ := hex
      rw [(hT.first hk).dirMap] at h
      exact ⟨k, hk, Option.some.inj h⟩
    · rw [dirMap_eq_none.2 fun k hk => hex ⟨k, hk⟩] at h
      cases h
  · rintro ⟨k, hk, rfl⟩
    exact (hT.first hk).dirMap

theorem distinct_congr {T' : Tree} (h : T'.entry d = T.entry d) : T'.Distinct d ↔ T.Distinct d := by
  unfold Distinct Match
  rw [h]

theorem dirMap_congr {T' : Tree} (h : T'.entry d = T.entry d) : T'.dirMap d = T.dirMap d := by
  unfold dirMap Match
  rw [h]

/-! ## Changes of one entry -/

theorem setEntry_self (T : Tree) (d k : ℕ) (e : DirEntry) : (T.setEntry d k e).entry d k = e := by
  rw [setEntry_entry, upd_self, upd_self]

theorem setEntry_of_ne (T : Tree) (d : ℕ) {j k : ℕ} (e : DirEntry) (h : j ≠ k) :
    (T.setEntry d k e).entry d j = T.entry d j := by
  rw [setEntry_entry, upd_self, upd_of_ne h]

theorem match_setEntry_of_ne {j : ℕ} (h : j ≠ k) :
    (T.setEntry d k e).Match d j name ↔ T.Match d j name := by
  unfold Match
  rw [setEntry_of_ne T d e h]

theorem match_setEntry_self : (T.setEntry d k e).Match d k name ↔ e.inum ≠ 0 ∧ e.name = name := by
  unfold Match
  rw [setEntry_self]

theorem Distinct.dirMap_setEntry_of_ne (hT : T.Distinct d) (hT' : (T.setEntry d k e).Distinct d)
    (hold : ¬T.Match d k name) (hnew : ¬(T.setEntry d k e).Match d k name) :
    (T.setEntry d k e).dirMap d name = T.dirMap d name := by
  refine Option.ext fun i => ?_
  rw [hT'.dirMap_eq_some, hT.dirMap_eq_some]
  refine exists_congr fun j => ?_
  by_cases hj : j = k
  · subst hj
    exact iff_of_false (fun h => hnew h.1) fun h => hold h.1
  · rw [match_setEntry_of_ne hj, setEntry_of_ne T d e hj]

theorem Distinct.setEntry (hT : T.Distinct d) (h : e.inum ≠ 0 → ∀ j ≠ k, ¬T.Match d j e.name) :
    (T.setEntry d k e).Distinct d := by
  have hself {j : ℕ} {name : Name} (hk : (T.setEntry d k e).Match d k name) (hj : j ≠ k) :
      ¬(T.setEntry d k e).Match d j name := by
    rw [match_setEntry_of_ne hj]
    obtain ⟨hinum, rfl⟩ := match_setEntry_self.1 hk
    exact h hinum j hj
  intro i j name hi hj
  by_cases hik : i = k
  · subst hik
    by_contra hne
    exact hself hi (Ne.symm hne) hj
  by_cases hjk : j = k
  · subst hjk
    exact absurd hi (hself hj hik)
  · exact hT ((match_setEntry_of_ne hik).1 hi) ((match_setEntry_of_ne hjk).1 hj)

theorem Distinct.dirMap_bind (hT : T.Distinct d) (hk : (T.entry d k).inum = 0) (he : e.inum ≠ 0)
    (hnew : ∀ j, ¬T.Match d j e.name) :
    (T.setEntry d k e).dirMap d = upd (T.dirMap d) e.name (some e.inum) := by
  have hT' : (T.setEntry d k e).Distinct d := hT.setEntry fun _ j _ => hnew j
  funext name
  by_cases hname : name = e.name
  · subst hname
    rw [upd_self, hT'.dirMap_eq_some]
    exact ⟨k, match_setEntry_self.2 ⟨he, rfl⟩, by rw [setEntry_self]⟩
  · rw [upd_of_ne hname]
    refine hT.dirMap_setEntry_of_ne hT' (fun h => h.1 hk) fun h => ?_
    exact hname (match_setEntry_self.1 h).2.symm

theorem Distinct.dirMap_clear (hT : T.Distinct d) (hk : T.Match d k name) :
    (T.setEntry d k DirEntry.empty).dirMap d = upd (T.dirMap d) name none := by
  have hT' : (T.setEntry d k DirEntry.empty).Distinct d := hT.setEntry fun h => absurd rfl h
  have hclear {name : Name} : ¬(T.setEntry d k DirEntry.empty).Match d k name := fun h =>
    (match_setEntry_self.1 h).1 rfl
  funext n
  by_cases hn : n = name
  · subst hn
    rw [upd_self, dirMap_eq_none]
    intro j
    by_cases hj : j = k
    · rw [hj]
      exact hclear
    · rw [match_setEntry_of_ne hj]
      exact fun h => hj (hT h hk)
  · rw [upd_of_ne hn]
    exact hT.dirMap_setEntry_of_ne hT' (fun h => hn (h.2.symm.trans hk.2)) hclear

end Tree

section Operations

variable {sb : SuperBlock} {v : View} {B F : Multiset Inode} {K : Finset (Fin NINODE)} {M : Mode}
  {s s' : Fs} {ip : Inode} {name : Name}

/-- The entries of directory `d` on the disk. -/
noncomputable def Fs.dirMap (s : Fs) (sb : SuperBlock) (d : ℕ) : Name → Option UInt16 :=
  (sb.view s.disk).tree.dirMap d

/-- The slots of the directory hold whole entries, of distinct names. -/
structure DirOk (sb : SuperBlock) (d : ℕ) (s : Fs) : Prop where
  size : ((sb.view s.disk).node d).size.toNat % DIRENTSIZE = 0
  distinct : (sb.view s.disk).tree.Distinct d

/-- `lookup` answers what the map says. -/
def LooksUp (m : Name → Option UInt16) (name : Name) : Except FsError (Option (ℕ × Inode)) → Prop
  | .ok (some (_, found)) => ∃ i, m name = some i ∧ found.inum = i.toNat
  | .ok none => m name = none
  | .error _ => False

/-- The operations on a directory are those of a map, at `name`. -/
structure ActsAsMap (sb : SuperBlock) (ip : Inode) (name : Name) (s : Fs) : Prop where
  lookup : ∃ r s', (Directory.lookup sb ip name).run s = .ok (r, s') ∧
    LooksUp (s.dirMap sb ip.inum) name r ∧ sb.view s'.disk = sb.view s.disk
  link : ∀ inum : UInt16, inum ≠ 0 → inum.toNat < sb.ninodes → ∀ s',
    (Directory.link sb ip name inum).run s = .ok (.ok ⟨⟩, s') → DirOk sb ip.inum s' ∧
      s.dirMap sb ip.inum name = none ∧
      s'.dirMap sb ip.inum = upd (s.dirMap sb ip.inum) name (some inum) ∧
      ∃ k, (∀ l < k, ((sb.view s.disk).tree.entry ip.inum l).inum ≠ 0) ∧
        ((sb.view s.disk).tree.entry ip.inum k).inum = 0 ∧
        (sb.view s'.disk).tree.entry ip.inum k = ⟨inum, name⟩
  linkFails : ∀ inum : UInt16, inum.toNat < sb.ninodes → ∀ e s',
    (Directory.link sb ip name inum).run s = .ok (.error e, s') →
      DirOk sb ip.inum s' ∧ s'.dirMap sb ip.inum = s.dirMap sb ip.inum
  clear : ∀ k, (sb.view s.disk).tree.Match ip.inum k name → ∀ r s',
    (ip.write sb (DIRENTSIZE * k) DirEntry.empty.src).run s = .ok (r, s') → r = .ok DIRENTSIZE ∧
      DirOk sb ip.inum s' ∧ s'.dirMap sb ip.inum = upd (s.dirMap sb ip.inum) name none
  isEmpty : ∃ r s', (Directory.isEmpty sb ip).run s = .ok (r, s') ∧ sb.view s'.disk = sb.view s.disk ∧
    (r = true ↔ ∀ k, 2 ≤ k → ((sb.view s.disk).tree.entry ip.inum k).inum = 0)

/-! ## The operations -/

theorem Hidden.not_of_absent {T : Tree} {d : ℕ} (h : ∀ k, ¬T.Match d k name) :
    ¬Hidden B F T d name :=
  fun ⟨_, k, hfirst, _⟩ => h k hfirst.1

theorem FsAt.dirMap (h : FsAt sb v B F K M s) (d : ℕ) : s.dirMap sb d = v.tree.dirMap d := by
  unfold Fs.dirMap
  rw [h.view]

theorem FsAt.dirOk (h : FsAt sb v B F K M s) (hdir : v.tree.type ip.inum = .directory)
    (hdist : v.tree.Distinct ip.inum) : DirOk sb ip.inum s := by
  refine ⟨?_, ?_⟩ <;> rw [h.view]
  · exact h.ok.dirSize _ hdir
  · exact hdist

theorem Released.entry {i : ℕ} {H : Multiset Inode} {v' : View} (h : Released sb i H v v')
    (hip : ip ∈ H) :
    v'.tree.type ip.inum = v.tree.type ip.inum ∧ v'.tree.entry ip.inum = v.tree.entry ip.inum := by
  rcases h with rfl | ⟨hfreed, hother⟩
  · exact ⟨rfl, rfl⟩
  · rw [hfreed.tree]
    exact ⟨upd_of_ne (hother ip hip), upd_of_ne (hother ip hip)⟩

theorem Directory.lookup_map (hip : ip ∈ B + F) (hK : ip.id ∈ K)
    (hdir : (v.node ip.inum).type = .directory) (h : FsAt sb v B F K M s) :
    ∃ r s', (lookup sb ip name).run s = .ok (r, s') ∧
    (LooksUp (v.tree.dirMap ip.inum) name r ∧ ¬Hidden B F v.tree ip.inum name ∨
      (∃ e, r = .error e) ∧ Hidden B F v.tree ip.inum name) ∧ sb.view s'.disk = v := by
  refine wp_total (Directory.lookup_fs hip hK hdir h (fun k found s' hfirst hfound huse hs' => ?_)
    (fun s' hno hs' => ?_) fun e s' hhidden hs' => ?_)
  · refine ⟨Or.inl ⟨⟨_, hfirst.dirMap, hfound⟩, ?_⟩, hs'.view⟩
    rintro ⟨hfull, l, hl, hout⟩
    obtain ⟨jp, hjp, hinum⟩ := huse hfull
    refine hout jp hjp ?_
    rw [hinum, hfound, hfirst.unique hl]
  · exact ⟨Or.inl ⟨Tree.dirMap_eq_none.2 hno, Hidden.not_of_absent hno⟩, hs'.view⟩
  · exact ⟨Or.inr ⟨⟨e, rfl⟩, hhidden⟩, hs'.view⟩

/-- What `link` leaves, whether it made an entry or not. -/
def LinkLeaves (B F : Multiset Inode) (T T' : Tree) (d : ℕ) (name : Name) (inum : UInt16) :
    Except FsError PUnit → Prop
  | .ok _ => ((∀ l, ¬T.Match d l name) ∨ Hidden B F T d name) ∧
      ∃ k, (∀ l < k, (T.entry d l).inum ≠ 0) ∧ (T.entry d k).inum = 0 ∧
        T' = T.setEntry d k (DirEntry.stored ⟨inum, name⟩)
  | .error _ => T'.type d = T.type d ∧ T'.entry d = T.entry d

theorem Directory.link_map (hsb : sb.Valid) (hops : 0 < M.ops) (hip : ip ∈ B + F) (hK : ip.id ∈ K)
    (hdir : (v.node ip.inum).type = .directory) {inum : UInt16} (hinum : inum.toNat < sb.ninodes)
    (h : FsAt sb v B F K M s) {r : Except FsError PUnit}
    (hrun : (link sb ip name inum).run s = .ok (r, s')) :
    ∃ v', FsAt sb v' B F K M.dirty s' ∧ LinkLeaves B F v.tree v'.tree ip.inum name inum r := by
  refine wp_ok (Q := fun r s' => ∃ v', FsAt sb v' B F K M.dirty s' ∧
    LinkLeaves B F v.tree v'.tree ip.inum name inum r) (E := fun _ => True) (Directory.link_fs (M := M.dirty) hsb
      ⟨hops, trivial, trivial⟩ hip hK hdir hinum (fun hc => hc.elim) h.dirty
      (fun k v' s' habsent hbefore hk _ htree _ hs' => ?_) (fun e v' s' _ htree hs' => ?_)
      fun e k v' s' _ hrel hs' => ?_) hrun
  · exact ⟨v', hs', habsent, k, hbefore, hk, htree⟩
  · exact ⟨v', hs', by rw [htree], by rw [htree]⟩
  · exact ⟨v', hs', hrel.entry hip⟩

theorem Directory.clear_map (hsb : sb.Valid) (hops : 0 < M.ops) (hip : ip ∈ B + F)
    (hK : ip.id ∈ K) (hdir : (v.node ip.inum).type = .directory) {k : ℕ}
    (hk : v.tree.Match ip.inum k name) (h : FsAt sb v B F K M s) {r : Except FsError ℕ}
    (hrun : (ip.write sb (DIRENTSIZE * k) DirEntry.empty.src).run s = .ok (r, s')) :
    ∃ v', FsAt sb v' B F K M.dirty s' ∧ r = .ok DIRENTSIZE ∧
    v'.tree = v.tree.setEntry ip.inum k DirEntry.empty := by
  have hslot : k < v.slots ip.inum := by
    by_contra hle
    refine hk.1 ?_
    rw [h.ok.tree_entry_of_le (by omega)]
    rfl
  refine wp_ok (Q := fun r s' => ∃ v', FsAt sb v' B F K M.dirty s' ∧ r = .ok DIRENTSIZE ∧
    v'.tree = v.tree.setEntry ip.inum k DirEntry.empty) (E := fun _ => True)
    (Directory.writeEntry_fs (M := M.dirty) hsb ⟨hops, trivial, trivial⟩ hip hK hdir hslot.le (e := DirEntry.empty)
      ((Nat.zero_le _).trans_lt (h.inum_lt hip)) (fun hc => hc.elim) h.dirty
      (fun v' s' _ htree _ hs' => ⟨v', hs', rfl, htree⟩) (fun _ _ hend => ?_) fun _ _ hend => ?_) hrun
  · omega
  · omega

/-- A directory acts as a map at a name exactly if the inode table has room for the inode of that
name. -/
theorem actsAsMap_iff (hsb : sb.Valid) (h : FsAt sb v B F K M s) (hops : 0 < M.ops)
    (hip : ip ∈ B + F) (hK : ip.id ∈ K) (hdir : (v.node ip.inum).type = .directory)
    (hdist : v.tree.Distinct ip.inum) (hlen : name.length ≤ DIRSIZE) (hnul : (0 : UInt8) ∉ name) :
    ActsAsMap sb ip name s ↔ ¬Hidden B F v.tree ip.inum name := by
  have hmap := h.dirMap ip.inum
  have hview := h.view
  obtain ⟨r, s₁, hlookup, hr, hview₁⟩ := Directory.lookup_map hip hK hdir h
  constructor
  · rintro ⟨⟨r', s₂, hrun, hlooks, -⟩, -⟩
    rw [hlookup] at hrun
    obtain ⟨rfl, rfl⟩ := Prod.mk.inj (Except.ok.inj hrun)
    rcases hr with ⟨-, hhidden⟩ | ⟨⟨e, rfl⟩, -⟩
    · exact hhidden
    · exact hlooks.elim
  intro hhidden
  have hstored {inum : UInt16} (h0 : inum ≠ 0) : DirEntry.stored ⟨inum, name⟩ = ⟨inum, name⟩ := by
    rw [DirEntry.stored, if_neg h0, storedName_eq hlen hnul]
  refine ⟨⟨r, s₁, hlookup, ?_, hview₁.trans hview.symm⟩, fun inum h0 hinum s' hrun => ?_,
    fun inum hinum e s' hrun => ?_, fun k hk r s' hrun => ?_, ?_⟩
  · rw [hmap]
    exact (hr.resolve_right fun hbad => hhidden hbad.2).1
  · obtain ⟨v', hs', habsent, k, hbefore, hk, htree⟩ :=
      Directory.link_map hsb hops hip hK hdir hinum h hrun
    have hnew := habsent.resolve_right hhidden
    rw [hstored h0] at htree
    rw [hmap, hview, hs'.dirMap, hs'.view, htree]
    refine ⟨hs'.dirOk (by rwa [htree]) ?_, Tree.dirMap_eq_none.2 hnew,
      hdist.dirMap_bind hk h0 hnew, k, hbefore, hk, Tree.setEntry_self ..⟩
    rw [htree]
    exact hdist.setEntry fun _ j _ => hnew j
  · obtain ⟨v', hs', htype, hentry⟩ := Directory.link_map hsb hops hip hK hdir hinum h hrun
    rw [hmap, hs'.dirMap]
    refine ⟨hs'.dirOk (htype.trans hdir) ?_, Tree.dirMap_congr hentry⟩
    exact (Tree.distinct_congr hentry).2 hdist
  · rw [hview] at hk
    obtain ⟨v', hs', hr, htree⟩ := Directory.clear_map hsb hops hip hK hdir hk h hrun
    rw [hmap, hs'.dirMap, htree]
    refine ⟨hr, hs'.dirOk (by rwa [htree]) ?_, hdist.dirMap_clear hk⟩
    rw [htree]
    exact hdist.setEntry fun he => absurd rfl he
  · rw [hview]
    exact wp_total (Directory.isEmpty_fs hip hK hdir h fun r s' hr hs' => ⟨hs'.view, hr⟩)

/-! ## Names of any length -/

theorem View.length_entry_name (v : View) (d k : ℕ) : (v.tree.entry d k).name.length ≤ DIRSIZE := by
  unfold View.tree
  dsimp only
  split_ifs
  · refine (List.takeWhile_sublist _).length_le.trans ?_
    rw [List.length_map, List.length_range]
  · exact Nat.zero_le _

/-- `lookup` finds the name, and no second entry can be linked with it. -/
structure Findable (sb : SuperBlock) (ip : Inode) (name : Name) (inum : UInt16) (s : Fs) :
    Prop where
  lookup : ∃ offset found s', (Directory.lookup sb ip name).run s = .ok (.ok (some (offset, found)), s') ∧
    found.inum = inum.toNat
  link : ∀ inum' : UInt16, inum'.toNat < sb.ninodes → ∀ r s',
    (Directory.link sb ip name inum').run s = .ok (r, s') → ∃ e, r = .error e
  unique : ∃! k, (sb.view s.disk).tree.Match ip.inum k (storedName name)

/-- After a successful `link` the name is found, and entered once, exactly if it is not cut off, was
not there before and the inode table has room for its inode. -/
theorem link_findable_iff (hsb : sb.Valid) (h : FsAt sb v B F K M s) (hops : 0 < M.ops)
    (hip : ip ∈ B + F) (hK : ip.id ∈ K) (hdir : (v.node ip.inum).type = .directory)
    (hnul : (0 : UInt8) ∉ name) {inum : UInt16} (h0 : inum ≠ 0) (hinum : inum.toNat < sb.ninodes)
    (hrun : (Directory.link sb ip name inum).run s = .ok (.ok ⟨⟩, s')) :
    (Findable sb ip name inum s' ↔ name.length ≤ DIRSIZE ∧ (∀ k, ¬v.tree.Match ip.inum k name) ∧
      (Full B F → ∃ jp ∈ B + F, jp.inum = inum.toNat)) ∧
    (Findable sb ip name inum s' → v.tree.Distinct ip.inum →
      (sb.view s'.disk).tree.Distinct ip.inum) := by
  obtain ⟨v', hs', habsent, k, hbefore, hk, htree⟩ :=
    Directory.link_map hsb hops hip hK hdir hinum h hrun
  have hdir' : (v'.node ip.inum).type = .directory := by
    rw [← View.tree_type, htree]
    exact hdir
  obtain ⟨r, s₁, hlookup, hr, -⟩ := Directory.lookup_map hip hK hdir' hs'
  have hentry : v'.tree.entry ip.inum k = ⟨inum, storedName name⟩ := by
    rw [htree, Tree.setEntry_self, DirEntry.stored, if_neg h0]
  have hmatch : v'.tree.Match ip.inum k (storedName name) := by
    rw [Tree.Match, hentry]
    exact ⟨h0, rfl⟩
  have hother {j : ℕ} {n : Name} (hj : j ≠ k) : v'.tree.Match ip.inum j n ↔ v.tree.Match ip.inum j n := by
    rw [htree, Tree.match_setEntry_of_ne hj]
  -- the entry is the only one of its name if the name was new
  have hnew_of (hunique : ∃! j, (sb.view s'.disk).tree.Match ip.inum j (storedName name)) (j : ℕ) :
      ¬v.tree.Match ip.inum j (storedName name) := by
    intro hj
    have hne : j ≠ k := by
      rintro rfl
      exact hj.1 hk
    rw [hs'.view] at hunique
    exact hne (hunique.unique ((hother hne).2 hj) hmatch)
  have hhidden_iff (hfirst : v'.tree.First ip.inum k name) : Hidden B F v'.tree ip.inum name ↔
      ¬(Full B F → ∃ jp ∈ B + F, jp.inum = inum.toNat) := by
    constructor
    · rintro ⟨hfull, j, hj, hout⟩ huse
      obtain ⟨jp, hjp, heq⟩ := huse hfull
      rw [← hfirst.unique hj, hentry] at hout
      exact hout jp hjp heq
    · intro hno
      rw [Classical.not_imp] at hno
      refine ⟨hno.1, k, hfirst, fun jp hjp heq => hno.2 ⟨jp, hjp, ?_⟩⟩
      rwa [hentry] at heq
  refine ⟨⟨fun hfind => ?_, ?_⟩, fun hfind hdist => ?_⟩
  · obtain ⟨offset, found, s₂, hrun₂, -⟩ := hfind.lookup
    rw [hlookup] at hrun₂
    obtain ⟨rfl, rfl⟩ := Prod.mk.inj (Except.ok.inj hrun₂)
    obtain ⟨⟨i, hi, -⟩, hhidden⟩ := hr.resolve_right fun hno => by obtain ⟨⟨e, he⟩, -⟩ := hno; cases he
    have hlen : name.length ≤ DIRSIZE := by
      obtain ⟨j, hj⟩ : ∃ j, v'.tree.Match ip.inum j name := by
        by_contra hnone
        rw [Tree.dirMap_eq_none.2 (not_exists.1 hnone)] at hi
        cases hi
      rw [← hj.2]
      exact v'.length_entry_name _ _
    have hname := storedName_eq hlen hnul
    have hnew := hnew_of hfind.unique
    rw [hname] at hnew hmatch
    have hfirst : v'.tree.First ip.inum k name := ⟨hmatch, fun j hj => by
      rw [hother hj.ne]
      exact hnew j⟩
    exact ⟨hlen, hnew, not_not.1 fun hno => hhidden ((hhidden_iff hfirst).2 hno)⟩
  · rintro ⟨hlen, hnew, huse⟩
    have hname := storedName_eq hlen hnul
    rw [hname] at hmatch hentry
    have hfirst : v'.tree.First ip.inum k name := ⟨hmatch, fun j hj => by
      rw [hother hj.ne]
      exact hnew j⟩
    have hhidden : ¬Hidden B F v'.tree ip.inum name := fun hh => (hhidden_iff hfirst).1 hh huse
    refine ⟨?_, fun inum' hinum' r' s₂ hrun₂ => ?_, ?_⟩
    · have hlooks := (hr.resolve_right fun hbad => hhidden hbad.2).1
      rcases r with e | _ | ⟨offset, found⟩
      · exact hlooks.elim
      · exact absurd hmatch (Tree.dirMap_eq_none.1 hlooks k)
      · obtain ⟨i, hi, hfound⟩ := hlooks
        refine ⟨offset, found, s₁, hlookup, ?_⟩
        rw [hfirst.dirMap, hentry] at hi
        rw [hfound, ← Option.some.inj hi]
    · obtain ⟨v₂, -, hlinked⟩ := Directory.link_map (M := M.dirty) hsb hops hip hK hdir' hinum' hs' hrun₂
      cases r' with
      | error e => exact ⟨e, rfl⟩
      | ok _ => exact (hlinked.1.elim (fun hno => hno k hmatch) hhidden).elim
    · rw [hs'.view, hname]
      refine ⟨k, hmatch, fun j hj => ?_⟩
      by_contra hne
      exact hnew j ((hother hne).1 hj)
  · rw [hs'.view, htree]
    refine hdist.setEntry fun _ j _ => ?_
    rw [DirEntry.stored, if_neg h0]
    exact hnew_of hfind.unique j

end Operations

/-! ## Lost and doubled names -/

instance (T : Tree) (d k : ℕ) (name : Name) : Decidable (T.Match d k name) :=
  inferInstanceAs (Decidable (_ ∧ _))

/-- The image with the root directory locked, in an open transaction. -/
def rootFs : Fs :=
  { mkfsFs with
    outstanding := 1
    itable := upd mkfsFs.itable 0 ⟨1, ROOTINO, true, true, rootNode⟩ }

theorem mkfsDisk_root : (mkfsSuper.view mkfsDisk).node ROOTINO = rootNode := by
  rw [mkfsDisk_node]
  rfl

theorem mkfsDisk_at {s : Fs} {x : Slot} {K : Finset (Fin NINODE)} (hdisk : s.disk = mkfsDisk)
    (hlog : s.log = []) (htable : s.itable = upd mkfsFs.itable 0 x) (hinum : x.inum = ROOTINO)
    (hx : SlotOk mkfsSuper (mkfsSuper.view mkfsDisk) x 1 0 (0 ∈ K)) (hK : K ⊆ {0}) :
    FsAt mkfsSuper (mkfsSuper.view mkfsDisk) {⟨0, ROOTINO⟩} 0 K ⟨s.outstanding, False,
      (mkfsSuper.view mkfsDisk).tree.type⟩ s := by
  have hfree {id : Fin NINODE} (hid : id ≠ 0) : upd mkfsFs.itable 0 x id = ⟨0, 0, false, false, default⟩ :=
    (upd_of_ne hid).trans (if_neg hid)
  refine ⟨mkfsDisk_fsOk, by rw [hdisk], ?_, ⟨rfl, hlog ▸ List.nodup_nil, fun hc => hc.elim⟩, fun _ _ => rfl⟩
  rw [htable]
  refine ⟨fun id => ?_, fun ip hip => ?_, fun id id' hr hr' _ => ?_, fun ip hip => ?_⟩
  · by_cases hid : id = 0
    · subst hid
      rw [upd_self]
      exact hx
    · have hno : id ∉ K := fun hmem => hid (Finset.mem_singleton.1 (hK hmem))
      rw [hfree hid]
      refine ⟨?_, by simp, by simp, by simp [hno], fun hmem => absurd hmem hno⟩
      rw [← Multiset.cons_zero, inSlot_cons, if_neg (Ne.symm hid)]
      rfl
  · rw [add_zero, Multiset.mem_singleton] at hip
    rw [hip, upd_self, hinum]
  · have h0 {id : Fin NINODE} (hr : 0 < (upd mkfsFs.itable 0 x id).ref) : id = 0 := by
      by_contra hid
      rw [hfree hid] at hr
      exact absurd hr (Nat.lt_irrefl 0)
    rw [h0 hr, h0 hr']
  · rw [Multiset.mem_singleton.1 hip, mkfsDisk_root]
    decide

theorem rootFs_at : FsAt mkfsSuper (mkfsSuper.view mkfsDisk) {⟨0, ROOTINO⟩} 0 {0}
    ⟨1, False, (mkfsSuper.view mkfsDisk).tree.type⟩ rootFs := by
  refine mkfsDisk_at (s := rootFs) (x := ⟨1, ROOTINO, true, true, rootNode⟩) rfl rfl rfl rfl
    ⟨rfl, fun _ => by decide, fun _ _ => ?_, by decide, fun _ => by decide⟩ subset_rfl
  rw [show (⟨1, ROOTINO, true, true, rootNode⟩ : Slot).inum = ROOTINO from rfl, mkfsDisk_root]
  exact ⟨rfl, by decide⟩

/-- Slots from `n` on are empty. -/
def View.Live (v : View) (d n : ℕ) : Prop :=
  ∀ k, n ≤ k → DIRENTSIZE * k < (v.node d).size.toNat → (v.tree.entry d k).inum = 0

theorem View.Live.lt {v : View} {d n k : ℕ} {name : Name} (h : v.Live d n)
    (hk : v.tree.Match d k name) : k < n := by
  by_contra hle
  refine hk.1 ?_
  by_cases hsize : DIRENTSIZE * k < (v.node d).size.toNat
  · exact h k (by omega) hsize
  · unfold View.tree
    dsimp only
    rw [if_neg fun hc => hsize hc.2.1]
    rfl

theorem View.Live.distinct {v : View} {d n : ℕ} (h : v.Live d n)
    (hnames : ∀ j < n, ∀ k < n, (v.tree.entry d j).name = (v.tree.entry d k).name → j = k) :
    v.tree.Distinct d := fun j k _ hj hk =>
  hnames j (h.lt hj) k (h.lt hk) (hj.2.trans hk.2.symm)

theorem View.live_of_check {v : View} {d n : ℕ} (hsize : (v.node d).size = 1024)
    (h : ∀ k < 64, n ≤ k → (v.tree.entry d k).inum = 0) : v.Live d n := by
  intro k hk hlt
  have hD : DIRENTSIZE = 16 := rfl
  have h1024 : (1024 : UInt32).toNat = 1024 := rfl
  rw [hsize, hD, h1024] at hlt
  exact h k (by omega) hk

theorem mkfsDisk_live : (mkfsSuper.view mkfsDisk).Live 1 3 :=
  View.live_of_check (by decide +kernel) (by decide +kernel)

def longName : Name := List.replicate 15 97

/-- A name of 15 bytes is linked but not found, and it can be linked again. -/
theorem long_name_lost : ∃ s₁ s₂ s₃,
    (Directory.link mkfsSuper ⟨0, ROOTINO⟩ longName 2).run rootFs = .ok (.ok ⟨⟩, s₁) ∧
    (Directory.lookup mkfsSuper ⟨0, ROOTINO⟩ longName).run s₁ = .ok (.ok none, s₂) ∧
    (Directory.link mkfsSuper ⟨0, ROOTINO⟩ longName 2).run s₁ = .ok (.ok ⟨⟩, s₃) := by
  have hrun : returnsOk ((Directory.link mkfsSuper ⟨0, ROOTINO⟩ longName 2).run rootFs) (fun _ s₁ =>
      returnsOk ((Directory.lookup mkfsSuper ⟨0, ROOTINO⟩ longName).run s₁) (fun found _ => found.isNone) &&
        returnsOk ((Directory.link mkfsSuper ⟨0, ROOTINO⟩ longName 2).run s₁) fun _ _ => true) = true := by
    decide +kernel
  obtain ⟨_, s₁, h₁, hrun⟩ := exists_of_returnsOk hrun
  rw [Bool.and_eq_true] at hrun
  obtain ⟨found, s₂, h₂, hnone⟩ := exists_of_returnsOk hrun.1
  obtain ⟨_, s₃, h₃, -⟩ := exists_of_returnsOk hrun.2
  rw [Option.isNone_iff_eq_none] at hnone
  subst hnone
  exact ⟨s₁, s₂, s₃, h₁, h₂, h₃⟩

theorem link_findable_g : ∃ s', (Directory.link mkfsSuper ⟨0, ROOTINO⟩ [103] 2).run rootFs =
    .ok (.ok ⟨⟩, s') ∧ Findable mkfsSuper ⟨0, ROOTINO⟩ [103] 2 s' := by
  have hrun : returnsOk ((Directory.link mkfsSuper ⟨0, ROOTINO⟩ [103] 2).run rootFs) (fun _ _ => true) = true := by
    decide +kernel
  obtain ⟨_, s', h, -⟩ := exists_of_returnsOk hrun
  refine ⟨s', h, (link_findable_iff mkfsSuper_valid rootFs_at (by decide) (by decide) (by decide)
    (by rw [mkfsDisk_node]; rfl) (by decide) (by decide) (by decide) h).1.2
    ⟨by decide, fun k hk => ?_, fun hfull => ?_⟩⟩
  · have hnames : ∀ k < 3, ((mkfsSuper.view mkfsDisk).tree.entry 1 k).name ≠ [103] := by decide +kernel
    exact hnames k (mkfsDisk_live.lt hk) hk.2
  · exact absurd (hfull 1) (by decide)

/-- The image with files in inodes 3 to 51. -/
def crowdedDisk : ℕ → Bytes :=
  (List.range 49).foldl (fun d j => storeInode mkfsSuper d (j + 3) fileNode) mkfsDisk

theorem storeInode_dir {n : InodeInner} (d : ℕ → Bytes) {i : ℕ} (hi : i < mkfsSuper.ninodes)
    (h1 : 1 ≠ i) :
    (mkfsSuper.view (storeInode mkfsSuper d i n)).node 1 = (mkfsSuper.view d).node 1 ∧
    (mkfsSuper.view (storeInode mkfsSuper d i n)).tree.entry 1 =
      (mkfsSuper.view d).tree.entry 1 := by
  have hnode : ((mkfsSuper.view d).setNode i n).node 1 = (mkfsSuper.view d).node 1 := upd_of_ne h1
  unfold storeInode
  rw [view_storeInode mkfsSuper_valid hi]
  have hbyte : ((mkfsSuper.view d).setNode i n).byte 1 = (mkfsSuper.view d).byte 1 := by
    funext o
    unfold View.byte byteAt
    rw [places_mk, places_mk, hnode]
    rfl
  refine ⟨hnode, funext fun k => ?_⟩
  unfold View.tree View.entry
  dsimp only
  rw [hnode, hbyte]

theorem crowdedDisk_dir : (mkfsSuper.view crowdedDisk).node 1 = (mkfsSuper.view mkfsDisk).node 1 ∧
    (mkfsSuper.view crowdedDisk).tree.entry 1 = (mkfsSuper.view mkfsDisk).tree.entry 1 := by
  have hfold (l : List ℕ) (hl : ∀ j ∈ l, j + 3 < mkfsSuper.ninodes) (d : ℕ → Bytes) :
      (mkfsSuper.view (l.foldl (fun d j => storeInode mkfsSuper d (j + 3) fileNode) d)).node 1 =
        (mkfsSuper.view d).node 1 ∧
      (mkfsSuper.view (l.foldl (fun d j => storeInode mkfsSuper d (j + 3) fileNode) d)).tree.entry 1 =
        (mkfsSuper.view d).tree.entry 1 := by
    induction l generalizing d with
    | nil => exact ⟨rfl, rfl⟩
    | cons j l ih =>
      obtain ⟨hnode, hentry⟩ := storeInode_dir (n := fileNode) d (hl j List.mem_cons_self) (by omega)
      obtain ⟨hnode', hentry'⟩ := ih (fun i hi => hl i (List.mem_cons_of_mem _ hi))
        (storeInode mkfsSuper d (j + 3) fileNode)
      exact ⟨hnode'.trans hnode, hentry'.trans hentry⟩
  exact hfold _ (by decide) _

/-- These files are open, so that all slots of the inode table are taken. -/
def crowdedFs : Fs :=
  { rootFs with
    disk := crowdedDisk
    itable := fun id =>
      if id = 0 then ⟨1, ROOTINO, true, true, rootNode⟩ else ⟨1, id.val + 2, false, false, default⟩ }

/-- With a full inode table `link` makes a second entry of the name `f`. -/
theorem doubled_name : DirOk mkfsSuper 1 crowdedFs ∧ ∃ s',
    (Directory.link mkfsSuper ⟨0, ROOTINO⟩ [102] 5).run crowdedFs = .ok (.ok ⟨⟩, s') ∧
    (mkfsSuper.view s'.disk).tree.Match 1 2 [102] ∧
    (mkfsSuper.view s'.disk).tree.Match 1 3 [102] := by
  have hrun : returnsOk ((Directory.link mkfsSuper ⟨0, ROOTINO⟩ [102] 5).run crowdedFs) (fun _ s' =>
      (mkfsSuper.view s'.disk).tree.Match 1 2 [102] ∧ (mkfsSuper.view s'.disk).tree.Match 1 3 [102]) = true := by
    decide +kernel
  refine ⟨⟨?_, ?_⟩, ?_⟩
  · change ((mkfsSuper.view crowdedDisk).node 1).size.toNat % DIRENTSIZE = 0
    rw [crowdedDisk_dir.1, mkfsDisk_node]
    rfl
  · exact (Tree.distinct_congr crowdedDisk_dir.2).2 (mkfsDisk_live.distinct (by decide +kernel))
  obtain ⟨_, s', h, hmatch⟩ := exists_of_returnsOk hrun
  exact ⟨s', h, of_decide_eq_true hmatch⟩

theorem actsAsMap_root : ActsAsMap mkfsSuper ⟨0, ROOTINO⟩ [102] rootFs :=
  (actsAsMap_iff mkfsSuper_valid rootFs_at (by decide) (by decide) (by decide)
    (by rw [mkfsDisk_node]; rfl) (mkfsDisk_live.distinct (by decide +kernel)) (by decide) (by decide)).2
    fun hhidden => absurd (hhidden.1 1) (by decide)

end Octopos
