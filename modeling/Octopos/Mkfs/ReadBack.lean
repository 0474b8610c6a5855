import Octopos.Mkfs.Mount

/-!
# The kernel reads back what `mkfs` wrote

For every list of input files that fits, `mkfs` makes an image on which the kernel finds each file
under its name and reads its bytes, finds no other name, and whose bitmap marks the metadata and the
blocks of the inodes.
-/

namespace Octopos

section ReadBack

variable {files : List InputFile} {d : ℕ → Bytes} {E : FsPanic → Prop} {s : Fs}

theorem Mounted.at (hm : Mounted d s) : At mkfsSuper (mkfsSuper.view d) s.itable s :=
  ⟨by rw [hm.disk], rfl⟩

theorem Mounted.room_upd (hm : Mounted d s) (id : Fin NINODE) (x : Slot) :
    ∃ id', (upd s.itable id x id').ref = 0 := by
  obtain ⟨a, b, hab, ha, hb⟩ := hm.room
  by_cases hid : a = id
  · exact ⟨b, by rw [upd_of_ne (hid ▸ hab.symm), hb]⟩
  · exact ⟨a, by rw [upd_of_ne hid, ha]⟩

theorem ImageOk.root_wp (hok : ImageOk files d) (hm : Mounted d s) {Q : Inode → Fs → Prop}
    {R : FsError → Fs → Prop}
    (hQ : ∀ id x s', At mkfsSuper (mkfsSuper.view d) (upd s.itable id x) s' →
      x.inner = (mkfsSuper.view d).node ROOTINO → 0 < x.ref → x.inum = ROOTINO →
      Q ⟨id, ROOTINO⟩ s') :
    wp (Inode.get ROOTINO) (fun r s1 =>
      match r with
      | .error e => R e s1
      | .ok root => wp (root.lock mkfsSuper) (fun _ s2 => Q root s2) E s1) E s := by
  refine Inode.get_quiet_wp hm.synced ?_ hm.at ?_
  · obtain ⟨a, -, -, ha, -⟩ := hm.room
    exact ⟨a, ha⟩
  intro id x s1 h1 _ href hinum hlocked hsynced
  change wp (Inode.lock mkfsSuper ⟨id, ROOTINO⟩) _ E s1
  refine Inode.lock_quiet_wp (show ROOTINO < mkfsSuper.ninodes by decide) ?_ ?_ ?_ h1 ?_
  · rw [upd_self, hlocked]
    exact hm.unlocked id
  · rw [upd_self]
    exact hsynced
  · rw [hok.type]
    exact fun e => by cases e
  · intro y s2 h2 hr hi hinner
    rw [upd_self] at hr hi
    rw [upd_idem] at h2
    exact hQ id y s2 h2 hinner (by omega) (by rw [hi, hinum])

theorem resolve_wp {name : Name} (hne : name ≠ []) (hslash : SLASH ∉ name) (cwd : Inode)
    {Q : Except FsError Inode → Fs → Prop}
    (h : wp (Inode.get ROOTINO) (fun r s1 =>
      match r with
      | .error e => Q (.error e) s1
      | .ok root => wp (root.lock mkfsSuper) (fun _ s2 =>
        wp (getInner root.id) (fun inner s3 =>
          if inner.type = .directory then
            wp (Directory.lookup mkfsSuper root name) (fun r s4 =>
              match r with
              | .error e => wp (root.unlockPut mkfsSuper) (fun _ s5 => Q (.error e) s5) E s4
              | .ok none => wp (root.unlockPut mkfsSuper) (fun _ s5 => Q (.error .resolve) s5) E s4
              | .ok (some (_, next)) =>
                wp (root.unlockPut mkfsSuper) (fun _ s5 => Q (.ok next) s5) E s4) E s3
          else wp (root.unlockPut mkfsSuper) (fun _ s4 => Q (.error .resolve) s4) E s3) E s2) E s1)
      E s) : wp (Path.resolve mkfsSuper cwd (SLASH :: name)) Q E s := by
  unfold Path.resolve Path.resolveInner
  rw [List.head?_cons, if_pos rfl, wp_bind, wp_bind]
  refine wp_mono h (fun r s1 hr => ?_) fun _ h => h
  cases r with
  | error e => exact hr
  | ok root =>
    dsimp only at hr ⊢
    unfold Path.walk
    rw [nextComponent_file hne hslash]
    dsimp only
    rw [wp_bind]
    refine wp_mono hr (fun _ s2 hr => ?_) fun _ h => h
    rw [wp_bind]
    refine wp_mono hr (fun inner s3 hr => ?_) fun _ h => h
    refine wp_ite (fun hdir => ?_) fun hdir => ?_
    · rw [if_neg hdir] at hr
      rw [wp_bind]
      exact hr
    · rw [ne_eq, not_not] at hdir
      rw [if_pos hdir] at hr
      refine wp_ite (fun hp => absurd hp.1 (by simp)) fun _ => ?_
      rw [wp_bind]
      refine wp_mono hr (fun r s4 hr => ?_) fun _ h => h
      match r with
      | .error e =>
        rw [wp_bind]
        exact hr
      | .ok none =>
        rw [wp_bind]
        exact hr
      | .ok (some (_, next)) =>
        rw [wp_bind]
        exact hr

theorem ImageOk.resolve_file_wp (hok : ImageOk files d) (hfit : Fits files) (hm : Mounted d s)
    {j : ℕ} {f : InputFile} (hf : files[j]? = some f) (cwd : Inode) :
    wp (Path.resolve mkfsSuper cwd (SLASH :: f.name)) (fun r s' => ∃ ip t', r = .ok ip ∧
      ip.inum = j + 2 ∧ At mkfsSuper (mkfsSuper.view d) t' s' ∧ (t' ip.id).locked = false ∧
      ((t' ip.id).valid = true → (t' ip.id).inner = (mkfsSuper.view d).node (j + 2))) E s := by
  refine resolve_wp f.ne_nil f.no_slash cwd (hok.root_wp hm fun id x s1 h1 hinner href hinum => ?_)
  refine getInner_wp h1 ?_
  rw [upd_self, hinner, if_pos hok.type]
  have hs : Synced (mkfsSuper.view d) (upd s.itable id x) ⟨id, ROOTINO⟩ := by
    unfold Synced
    rw [upd_self, hinner]
  have hquiet : Quiet (mkfsSuper.view d) (upd s.itable id x) := by
    intro a ha hv
    by_cases haid : a = id
    · subst haid
      rw [upd_self, hinner, hinum]
    · rw [upd_of_ne haid] at ha hv ⊢
      exact hm.synced a ha hv
  refine hok.lookup_file_wp hfit rfl hs hf h1 fun s2 h2 => ?_
  refine Inode.get_quiet_wp hquiet (hm.room_upd id x) h2 ?_
  intro id' y s3 h3 hslot _ _ hlocked hsynced
  -- the slot of the file is not that of the root directory
  have hne : id' ≠ id := by
    rintro rfl
    rw [upd_self, hinum] at hslot
    have : ROOTINO = 1 := rfl
    omega
  rw [upd_of_ne hne, hm.unlocked] at hlocked
  change wp (Inode.unlockPut mkfsSuper ⟨id, ROOTINO⟩) _ E s3
  refine Inode.unlockPut_quiet_wp ?_ h3 ?_
  · rw [upd_of_ne hne.symm, upd_self, hinner, hok.nlink]
    decide
  · intro z s4 h4
    refine ⟨_, _, rfl, rfl, h4, ?_, ?_⟩
    · rw [upd_of_ne hne, upd_self, hlocked]
    · rw [upd_of_ne hne, upd_self]
      exact hsynced

theorem ImageOk.read_wp (hok : ImageOk files d) (hfit : Fits files) {j : ℕ} {f : InputFile}
    (hf : files[j]? = some f) {t : Fin NINODE → Slot} {ip : Inode} (hip : ip.inum = j + 2)
    (hs : Synced (mkfsSuper.view d) t ip) (h : At mkfsSuper (mkfsSuper.view d) t s)
    {offset len : ℕ} {dst : Dst} (hoffset : offset ≤ f.data.length) (hlen : offset + len < 2 ^ 32)
    (hdst : dst.accepts (min len (f.data.length - offset)) = true) :
    wp (ip.read mkfsSuper offset len dst) (fun r _ => ∃ out,
      r = .ok (min len (f.data.length - offset), out) ∧
      (List.range (min len (f.data.length - offset))).map out =
        (f.data.drop offset).take len) E s := by
  obtain ⟨hj, rfl⟩ := List.getElem?_eq_some_iff.1 hf
  have hfile := hok.files j hj
  have hmax := hfit.size _ (List.getElem_mem hj)
  have hsize : (t ip.id).inner.size.toNat = files[j].data.length := by
    rw [hs, hip, hfile.size]
  have hhole : NoHole (mkfsSuper.view d) t ip := by
    intro k hk
    rw [hsize] at hk
    have hlt : k < MAXFILE := lt_of_mul_lt_mul_right (hk.trans_le hmax) (Nat.zero_le _)
    refine ⟨hlt, ?_⟩
    rw [hs.cur, hip]
    exact (hfile.packed.blocks k hlt).2 hk
  refine Inode.read_wp (by rw [hs.cur]; exact hok.own) hhole (by omega) h ?_ ?_
  · intro n s' hn _ _ _
    rw [hsize] at hn
    subst hn
    refine ⟨_, rfl, ?_⟩
    rw [hs.contents, hip, hfile.byte]
    refine List.ext_getElem (by simp) fun i h1 h2 => ?_
    have hi : i < min len (files[j].data.length - offset) := by simpa using h1
    have hin : blit (fun _ => 0) 0 (min len (files[j].data.length - offset))
        (fun i => files[j].data.getD (offset + i) 0) (0 + i) = files[j].data.getD (offset + i) 0 :=
      blit_inside hi
    rw [zero_add] at hin
    rw [List.getElem_map, List.getElem_range, hin, List.getElem_take, List.getElem_drop]
    exact List.getD_eq_getElem _ _ _
  · intro s' _ hbad
    rw [hsize, hdst] at hbad
    rcases hbad with hbad | hbad | hbad
    · omega
    · omega
    · cases hbad

theorem ImageOk.resolve_missing_wp (hok : ImageOk files d) (hfit : Fits files) (hm : Mounted d s)
    {name : Name} (hne : name ≠ []) (hslash : SLASH ∉ name)
    (hname : name ∉ files.map InputFile.name) (hdot : name ≠ DOT) (hdotdot : name ≠ DOTDOT)
    (cwd : Inode) :
    wp (Path.resolve mkfsSuper cwd (SLASH :: name)) (fun r _ => ∀ ip,
      r ≠ .ok ip) (fun _ => True) s := by
  refine resolve_wp hne hslash cwd (hok.root_wp hm fun id x s1 h1 hinner _ _ => ?_)
  refine getInner_wp h1 ?_
  rw [upd_self, hinner, if_pos hok.type]
  have hs : Synced (mkfsSuper.view d) (upd s.itable id x) ⟨id, ROOTINO⟩ := by
    unfold Synced
    rw [upd_self, hinner]
  refine wp_mono (hok.lookup_missing_wp hfit rfl hs hname hdot hdotdot h1) (fun r s2 hr => ?_) fun _ h => h
  match r with
  | .error e => exact wp_mono wp_true (fun _ _ _ ip hip => by cases hip) fun _ h => h
  | .ok none => exact wp_mono wp_true (fun _ _ _ ip hip => by cases hip) fun _ h => h
  | .ok (some p) => exact absurd rfl (hr p)

theorem ImageOk.bit_iff (hok : ImageOk files d) {b : ℕ} (hb : b < FSSIZE) :
    (mkfsSuper.view d).bit b = true ↔ b < NMETA ∨ ∃ i p, ((mkfsSuper.view d).node i).type ≠ .free ∧
    places (mkfsSuper.view d).node (mkfsSuper.view d).data (i, p) = b := by
  have hN : NMETA = 47 := rfl
  constructor
  · intro hbit
    by_cases hlow : b < NMETA
    · exact Or.inl hlow
    · obtain ⟨⟨i, p⟩, hx⟩ := hok.own.owned.listed b (by rw [mkfsSuper_dataStart]; omega) hb hbit
      refine Or.inr ⟨i, p, fun hfree => ?_, hx⟩
      have hblank : (mkfsSuper.view d).node i = default := by
        by_cases hi : i = 0 ∨ files.length + 2 ≤ i
        · exact hok.blank i hi
        by_cases hroot : i = ROOTINO
        · rw [hroot, hok.type] at hfree
          cases hfree
        · have hR : ROOTINO = 1 := rfl
          obtain ⟨k, rfl⟩ : ∃ k, i = k + 2 := ⟨i - 2, by omega⟩
          rw [(hok.files k (by omega)).type] at hfree
          cases hfree
      rw [places_mk, hblank, InodeInner.ptr_of_addrs rfl] at hx
      omega
  · rintro (hlow | ⟨i, p, -, rfl⟩)
    · exact hok.own.reserved b (by rwa [mkfsSuper_dataStart]) hb
    · by_cases h0 : places (mkfsSuper.view d).node (mkfsSuper.view d).data (i, p) = 0
      · rw [h0]
        exact hok.own.reserved 0 (by decide) (by decide)
      · exact hok.own.owned.used _ h0

end ReadBack

/-- The kernel reads back what `mkfs` wrote: on the image of every list of files that fits, the
superblock is accepted, the bitmap is exact, each file is found under its name and read back, and no
other name yields an inode. -/
theorem mkfs_read_back (files : List InputFile) (hfit : Fits files) (st : Mkfs.State) :
    ∃ st', (Mkfs.main files).run st = .ok (⟨⟩, st') ∧
      SuperBlock.initializeFrom (st'.sector 1) = some mkfsSuper ∧
      (∀ b < FSSIZE, (mkfsSuper.view st'.sector).bit b = true ↔ b < NMETA ∨
        ∃ i p, ((mkfsSuper.view st'.sector).node i).type ≠ .free ∧
          places (mkfsSuper.view st'.sector).node (mkfsSuper.view st'.sector).data (i, p) = b) ∧
      ∀ (s : Fs) (cwd : Inode), Mounted st'.sector s →
        (∀ f ∈ files, ∃ ip s₁ s₂,
          (Path.resolve mkfsSuper cwd (SLASH :: f.name)).run s = .ok (.ok ip, s₁) ∧
          (ip.lock mkfsSuper).run s₁ = .ok (⟨⟩, s₂) ∧
          (s₂.itable ip.id).inner.size.toNat = f.data.length ∧
          ∀ offset len dst, offset ≤ f.data.length → offset + len < 2 ^ 32 →
            dst.accepts (min len (f.data.length - offset)) = true →
            ∃ out s₃, (ip.read mkfsSuper offset len dst).run s₂ =
              .ok (.ok (min len (f.data.length - offset), out), s₃) ∧
              (List.range (min len (f.data.length - offset))).map out =
                (f.data.drop offset).take len) ∧
        ∀ name, name ∉ files.map InputFile.name → name ≠ DOT → name ≠ DOTDOT →
          (∀ root s₁ s₂ r s₃, (Inode.get ROOTINO).run s = .ok (.ok root, s₁) →
            (root.lock mkfsSuper).run s₁ = .ok (⟨⟩, s₂) →
            (Directory.lookup mkfsSuper root name).run s₂ = .ok (r, s₃) → ∀ p, r ≠ .ok (some p)) ∧
          (name ≠ [] → SLASH ∉ name → ∀ r s₁,
            (Path.resolve mkfsSuper cwd (SLASH :: name)).run s = .ok (r, s₁) →
            ∀ ip, r ≠ .ok ip) := by
  obtain ⟨⟨⟩, st', hrun, hok⟩ := wp_total (s := st) (Mkfs.main_wp hfit)
  refine ⟨st', hrun, hok.super, fun b hb => hok.bit_iff hb, fun s cwd hm => ⟨fun f hf => ?_,
    fun name hname hdot hdotdot => ⟨?_, ?_⟩⟩⟩
  · obtain ⟨j, hj⟩ := List.getElem?_of_mem hf
    obtain ⟨_, s₁, hresolve, ip, t, rfl, hip, h₁, hlocked, hsynced⟩ :=
      wp_total (hok.resolve_file_wp hfit hm hj cwd)
    obtain ⟨hlt, hfj⟩ := List.getElem?_eq_some_iff.1 hj
    have hfile := hok.files j hlt
    rw [hfj] at hfile
    have hcount : files.length ≤ 198 := hfit.count
    have hlock : wp (ip.lock mkfsSuper) (fun _ s₂ => ∃ t', At mkfsSuper (mkfsSuper.view st'.sector) t' s₂ ∧
        Synced (mkfsSuper.view st'.sector) t' ip) (fun _ => False) s₁ := by
      refine Inode.lock_quiet_wp (show ip.inum < 200 by omega) hlocked (by rwa [hip]) ?_ h₁ ?_
      · rw [hip, hfile.type]
        exact fun e => by cases e
      · intro x s₂ h₂ _ _ hinner
        exact ⟨_, h₂, by unfold Synced; rw [upd_self, hinner]⟩
    obtain ⟨⟨⟩, s₂, hlockrun, t', h₂, hs⟩ := wp_total hlock
    refine ⟨ip, s₁, s₂, hresolve, hlockrun, ?_, fun offset len dst hoffset hlen hdst => ?_⟩
    · rw [h₂.table, hs, hip, hfile.size]
    · obtain ⟨_, s₃, hread, out, rfl, hout⟩ := wp_total (hok.read_wp hfit hj hip hs h₂ hoffset hlen hdst)
      exact ⟨out, s₃, hread, hout⟩
  · intro root s₁ s₂ r s₃ hget hlock hlookup
    have hroot := wp_ok (hok.root_wp hm (E := fun _ => True) (R := fun _ _ => True)
      (Q := fun root s₂ => wp (Directory.lookup mkfsSuper root name)
        (fun r _ => ∀ p, r ≠ .ok (some p)) (fun _ => True) s₂) ?_) hget
    · exact wp_ok (wp_ok hroot hlock) hlookup
    · intro id x s₂ h₂ hinner _ _
      refine hok.lookup_missing_wp hfit rfl ?_ hname hdot hdotdot h₂
      unfold Synced
      rw [upd_self, hinner]
  · intro hne hslash r s₁ hresolve
    exact wp_ok (hok.resolve_missing_wp hfit hm hne hslash hname hdot hdotdot cwd) hresolve

/-- A file `f` with two bytes. -/
def sampleFile : InputFile where
  name := [102]
  data := [104, 105]
  ne_nil := by decide
  no_slash := by decide
  no_nul := by decide
  ne_dot := by decide
  ne_dotdot := by decide

theorem sampleFile_fits : Fits [sampleFile] := by
  refine ⟨by simp, fun f hf => ?_, by decide, fun f hf => ?_, by decide⟩
  · rw [List.mem_singleton.1 hf]
    decide
  · rw [List.mem_singleton.1 hf]
    decide

/-- The file system at boot, with an empty inode table. -/
def bootFs (d : ℕ → Bytes) : Fs where
  disk := d
  bufs _ := 0
  log := []
  outstanding := 0
  itable _ := ⟨0, 0, false, false, default⟩

theorem mounted_bootFs (d : ℕ → Bytes) : Mounted d (bootFs d) :=
  ⟨rfl, fun _ => rfl, fun _ h => absurd h (lt_irrefl 0), ⟨0, 1, by decide, rfl, rfl⟩⟩

/-- After boot from the image of the sample file, the path `/f` is found. -/
theorem mkfs_read_back_sample : ∃ st' ip s₁,
    (Mkfs.main [sampleFile]).run ⟨fun _ _ => 0, 0, 0⟩ = .ok (⟨⟩, st') ∧
      (Path.resolve mkfsSuper ⟨0, ROOTINO⟩ [SLASH, 102]).run (bootFs st'.sector) =
        .ok (.ok ip, s₁) := by
  obtain ⟨st', hrun, -, -, hmount⟩ :=
    mkfs_read_back [sampleFile] sampleFile_fits ⟨fun _ _ => 0, 0, 0⟩
  obtain ⟨ip, s₁, -, hresolve, -⟩ :=
    (hmount (bootFs st'.sector) ⟨0, ROOTINO⟩ (mounted_bootFs _)).1 sampleFile (by simp)
  exact ⟨st', ip, s₁, hrun, hresolve⟩

end Octopos
