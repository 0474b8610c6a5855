import Octopos.Fs.DirProof

/-!
# The walk along a path

`Path::resolve_inner` holds one handle at a time and gives it back when it has found the next one.
Giving back a handle may free an inode that has no links (`Reclaims`). Where everything that a path
can reach is linked or held by a process, nothing is freed, and the walk follows the tree
(`Reach`).
-/

namespace Octopos

/-- Some inodes without links have been freed. -/
def Reclaims (sb : SuperBlock) : View → View → Prop :=
  Relation.ReflTransGen fun v v' => ∃ i, FreedNode sb i v v'

theorem Reclaims.refl {sb : SuperBlock} (v : View) : Reclaims sb v v := Relation.ReflTransGen.refl

theorem Reclaims.released {sb : SuperBlock} {v v' v'' : View} {i : ℕ} {H : Multiset Inode}
    (h : Reclaims sb v v') (h' : Released sb i H v' v'') : Reclaims sb v v'' := by
  rcases h' with rfl | ⟨h', -⟩
  · exact h
  · exact Relation.ReflTransGen.tail h ⟨i, h'⟩

/-- What a walk may meet. Where `G` holds, the walk stays among the inodes in `R`, and none of them
is freed when a handle of it is given back. An inode that the walk meets may be one that would be
freed (`op`) or has been freed (`free`) only if the kernel may do or report that. -/
structure Reach (sb : SuperBlock) (G : Prop) (R : ℕ → Prop) (B : Multiset Inode) (M : Mode)
    (E : FsPanic → Prop) (v : View) : Prop where
  root : G → R ROOTINO
  named : G → ∀ d k, R d → (v.tree.entry d k).inum ≠ 0 → R (v.tree.entry d k).inum.toNat
  kept : G → ∀ i, R i → (v.node i).nlink ≠ 0 ∨ ∃ ip ∈ B, ip.inum = i
  op : ∀ v' i, (G → v' = v ∧ R i) → (v'.node i).nlink = 0 → (∀ ip ∈ B, ip.inum ≠ i) → InOp M E
  free : ∀ v' i, (G → v' = v ∧ R i) → (v'.node i).type = .free → E .noType

/-- A walk that started with disk `v` has come to disk `v'`. -/
structure Walked (sb : SuperBlock) (G : Prop) (v v' : View) : Prop where
  reclaims : Reclaims sb v v'
  eq : G → v' = v

namespace Path

theorem nextComponent_length {path component rest : Name}
    (h : nextComponent path = some (component, rest)) : rest.length < path.length := by
  have hdrop : (path.dropWhile (· = SLASH)).length ≤ path.length :=
    (List.dropWhile_suffix _).length_le
  unfold nextComponent at h
  cases hs : path.dropWhile (· = SLASH) with
  | nil => simp [hs] at h
  | cons c s =>
    rw [hs] at h hdrop
    have hc : c ≠ SLASH := by
      have := List.head_dropWhile_not (· = SLASH) (l := path) (by simp [hs])
      simpa [hs] using this
    simp only [Option.some.injEq, Prod.mk.injEq] at h
    rw [← h.2, List.dropWhile_cons_of_pos (by simpa using hc)]
    have h1 := (List.dropWhile_suffix (l := s.dropWhile (· ≠ SLASH)) (· = SLASH)).length_le
    have h2 := (List.dropWhile_suffix (l := s) (· ≠ SLASH)).length_le
    rw [List.length_cons] at hdrop
    omega

end Path

section Walk

variable {sb : SuperBlock} {G : Prop} {R : ℕ → Prop} {v₀ v : View} {B F : Multiset Inode} {M : Mode}
  {E : FsPanic → Prop} {s : Fs}
variable {parent : Bool} {Q : Except FsError (Inode × Name) → Fs → Prop}

theorem Walked.refl (G : Prop) (v : View) : Walked sb G v v := ⟨.refl v, fun _ => rfl⟩

theorem Walked.released (h : Walked sb G v₀ v) (hreach : Reach sb G R B M E v₀) {i : ℕ}
    (hi : G → R i) {H : Multiset Inode} (hB : B ≤ H) {v' : View} (hr : Released sb i H v v') :
    Walked sb G v₀ v' := by
  refine ⟨h.reclaims.released hr, fun hG => ?_⟩
  rw [← h.eq hG]
  refine hr.resolve_right fun ⟨hfreed, hno⟩ => ?_
  rcases hreach.kept hG i (hi hG) with hlink | ⟨ip, hip, rfl⟩
  · rw [← h.eq hG] at hlink
    exact hlink hfreed.was.2
  · exact hno ip (Multiset.mem_of_le hB hip) rfl

theorem Path.walk_fs (hsb : sb.Valid) (hreach : Reach sb G R B M E v₀) {fuel : ℕ} {inode : Inode}
    {path name : Name} (hfuel : path.length < fuel) (hw : Walked sb G v₀ v)
    (hR : G → R inode.inum) (h : FsAt sb v B (inode ::ₘ F) ∅ M s)
    (hok : ∀ v' ip n s', Walked sb G v₀ v' → (G → R ip.inum) →
      (G → v₀.tree.Walk parent ip.inum n inode.inum path name) →
      (parent = true → (v'.node ip.inum).type = .directory) → FsAt sb v' B (ip ::ₘ F) ∅ M s' →
      Q (.ok (ip, n)) s')
    (herr : ∀ e v' s', Walked sb G v₀ v' →
      (G → Roomy B F → ∀ i n, ¬v₀.tree.Walk parent i n inode.inum path name) →
      FsAt sb v' B F ∅ M s' → Q (.error e) s') :
    wp (walk sb parent fuel inode path name) Q E s := by
  induction fuel generalizing inode path name v s with
  | zero => exact absurd hfuel (Nat.not_lt_zero _)
  | succ fuel ih =>
    have hmem : inode ∈ B + inode ::ₘ F := by simp
    have hle : B ≤ B + F := Multiset.le_add_right B F
    have hlink := hreach.op v inode.inum fun hG => ⟨hw.eq hG, hR hG⟩
    unfold walk
    cases hpath : nextComponent path with
    | none =>
      cases hparent : parent with
      | true =>
        simp only [if_true]
        rw [wp_bind]
        refine Inode.put_fs hsb hlink (by simp) h fun v' s' hr _ hs' => ?_
        refine herr _ v' s' (hw.released hreach hR hle hr) (fun _ _ i n => ?_) hs'
        rw [hparent, Tree.walk_of_none hpath]
        exact fun hbad => Bool.noConfusion hbad.1
      | false =>
        subst hparent
        exact hok v inode name s hw hR (fun _ => .stop hpath rfl) (by simp) h
    | some next =>
      obtain ⟨component, rest⟩ := next
      have hrest := nextComponent_length hpath
      have herase : (insert inode.id (∅ : Finset (Fin NINODE))).erase inode.id = ∅ := by simp
      dsimp only
      rw [wp_bind]
      refine Inode.lock_fs hmem (by simp) (hreach.free v inode.inum fun hG => ⟨hw.eq hG, hR hG⟩) h fun s1 _ _ h1 => ?_
      have hK : inode.id ∈ insert inode.id (∅ : Finset (Fin NINODE)) := by simp
      -- the exits give back the handle
      have hexit (e : FsError) (s2 : Fs) (hno : G → Roomy B F → ∀ i n, ¬v₀.tree.Walk parent i n inode.inum path name)
          (h2 : FsAt sb v B (inode ::ₘ F) (insert inode.id ∅) M s2) :
          wp (do inode.unlockPut sb; return .error e : FsM (Except FsError (Inode × Name))) Q E s2 := by
        rw [wp_bind]
        refine Inode.unlockPut_fs hsb hlink hK h2 fun v' s' hr _ hs' => ?_
        rw [herase] at hs'
        exact herr e v' s' (hw.released hreach hR hle hr) hno hs'
      rw [wp_bind]
      refine getInner_fs hmem hK h1 (wp_ite (fun hnot => hexit _ s1 (fun hG _ i n => ?_) h1) fun hdir => ?_)
      · rw [Tree.walk_of_some hpath, ← hw.eq hG]
        exact fun hbad => hnot hbad.1
      rw [not_not] at hdir
      refine wp_ite (fun hlast => ?_) fun hlast => ?_
      · obtain ⟨hparent, rfl⟩ := hlast
        rw [wp_bind]
        refine Inode.unlock_fs h1 fun s2 h2 => ?_
        rw [herase] at h2
        refine hok v inode component s2 hw hR (fun hG => ?_) (fun _ => hdir) h2
        rw [← hw.eq hG]
        exact .early hpath hparent hdir
      · rw [wp_bind]
        refine Directory.lookup_fs hmem hK hdir h1 (fun k found s2 hfirst hfound _ h2 => ?_)
          (fun s2 hnone h2 => hexit _ s2 (fun hG _ i n => ?_) h2)
          fun e s2 hhidden h2 => hexit e s2 (fun _ hroomy => absurd hhidden.1 (hroomy inode)) h2
        swap
        · rw [Tree.walk_of_some hpath, ← hw.eq hG]
          rintro ⟨-, ⟨hbad, -⟩ | ⟨-, k, hfirst, -⟩⟩
          · exact hlast hbad
          · exact hnone k hfirst.1
        dsimp only
        rw [Multiset.cons_swap] at h2
        rw [wp_bind]
        refine Inode.unlockPut_fs hsb hlink hK h2 fun v3 s3 hr _ h3 => ?_
        rw [herase] at h3
        have hle' : B ≤ B + found ::ₘ F := Multiset.le_add_right ..
        refine ih (by omega) (hw.released hreach hR hle' hr) (fun hG => ?_) h3
          (fun v' ip n s' hw' hR' hwalk => hok v' ip n s' hw' hR' fun hG => ?_)
          fun e v' s' hw' hno => herr e v' s' hw' fun hG hroomy i n => ?_
        · rw [hfound, hw.eq hG]
          exact hreach.named hG _ k (hR hG) (hw.eq hG ▸ hfirst.1.1)
        · have hwalk := hwalk hG
          rw [hfound, hw.eq hG] at hwalk
          rw [hw.eq hG] at hdir hfirst
          exact .next hpath hdir hlast hfirst hwalk
        · have hno := hno hG hroomy i n
          rw [hfound, hw.eq hG] at hno
          rw [hw.eq hG] at hfirst
          rw [Tree.walk_of_some hpath]
          rintro ⟨-, ⟨hbad, -⟩ | ⟨-, j, hj, hwalk⟩⟩
          · exact hlast hbad
          · rw [hj.unique hfirst] at hwalk
            exact hno hwalk

theorem Path.resolveInner_fs (hsb : sb.Valid) (hreach : Reach sb G R B M E v) {cwd : Inode}
    (hcwd : cwd ∈ B) (hR : G → R cwd.inum) {path : Name} (h : FsAt sb v B F ∅ M s)
    (hok : ∀ v' ip n s', Walked sb G v v' → (G → R ip.inum) →
      (G → v.tree.Resolves cwd.inum path parent ip.inum n) →
      (parent = true → (v'.node ip.inum).type = .directory) → FsAt sb v' B (ip ::ₘ F) ∅ M s' →
      Q (.ok (ip, n)) s')
    (herr : ∀ e v' s', Walked sb G v v' →
      (G → Roomy B F → ∀ i n, ¬v.tree.Resolves cwd.inum path parent i n) → FsAt sb v' B F ∅ M s' →
      Q (.error e) s') : wp (resolveInner sb cwd path parent) Q E s := by
  have hmem : cwd ∈ B + F := Multiset.mem_add.2 (Or.inl hcwd)
  unfold Tree.Resolves at hok herr
  unfold resolveInner
  refine wp_ite (fun hroot => ?_) fun hroot => ?_
  · simp only [if_pos hroot] at hok herr
    rw [wp_bind]
    refine Inode.get_fs hsb.root h (fun root s1 hinum _ h1 => ?_) fun e s1 hfull _ h1 => ?_
    · rw [← hinum] at hok herr
      exact Path.walk_fs hsb hreach (Nat.lt_succ_self _) (.refl G v) (fun hG => hinum ▸ hreach.root hG) h1 hok herr
    · exact herr e v s1 (.refl G v) (fun _ hroomy => absurd hfull hroomy.not_full) h1
  · simp only [if_neg hroot] at hok herr
    rw [wp_bind]
    exact Inode.dup_fs hmem h fun s1 h1 => Path.walk_fs hsb hreach (Nat.lt_succ_self _) (.refl G v) hR h1 hok herr

end Walk

end Octopos
