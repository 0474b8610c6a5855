import Octopos.Buf.Positions

/-!
# The steps of `commit` and the calls

The remaining steps of the system keep the invariant of the cache, so it holds in every state that a
run reaches.
-/

namespace Octopos

section Steps

variable {P : Type} [Fintype P] {s s' : CacheSys P} {p q : P} {i a b : Fin NBUF} {k : BlockId}
  {la : LogArea} {c : CommitPc} {install : Bool} {n tail : ℕ}

/-! ## Steps of `commit` -/

theorem CacheInv.copy (h : CacheInv la s) (hp : s.pc p = .run) (ho : s.output = none)
    (hc : s.commit = some (p, .round install n tail (.copy a b))) :
    CacheInv la
      ((s.setData (CacheSys.dst install a b) (s.buf (CacheSys.src install a b)).data).setCommit p
        (.round install n tail (.flush a b))) := by
  obtain ⟨hn, hle, hlt, hpair, hda, hdb, hfa, hfb⟩ := h.commit p _ hc
  have hcore := h.core_at hc
  have hclean : s.dirty (CacheSys.src install a b) = false := by
    cases install
    · exact hdb
    · exact hda
  have hfresh : s.Fresh (CacheSys.src install a b) := by
    cases install
    · exact hfb
    · exact hfa
  refine h.setCommit hc (stepOn_setData (hpair.dst install) _) ?_ rfl rfl ho
    (by rw [show (s.setData _ _).pc p = s.pc p from rfl, hp]; rfl) ?_
  · have hcore' := hcore.setData hp (hpair.dst install) (s.buf (CacheSys.src install a b)).data
    cases install <;> exact hcore'
  · refine ⟨hn, hle, fun _ => hlt (by simp), ⟨hpair.log.setData .., hpair.home.setData .., hpair.ne⟩,
      (upd_of_ne (src_ne_dst hpair.ne install)).trans hclean, ?_, ?_⟩
    · exact (stepOn_setData (hpair.dst install) _).fresh (hpair.src install)
        (fun he => src_ne_dst hpair.ne install (Option.some.inj he).symm) hfresh
    · cases install
      · change (upd s.buf a { s.buf a with data := (s.buf b).data } a).data =
          (upd s.buf a { s.buf a with data := (s.buf b).data } b).data
        rw [upd_self, upd_of_ne hpair.ne.symm]
      · change (upd s.buf b { s.buf b with data := (s.buf a).data } a).data =
          (upd s.buf b { s.buf b with data := (s.buf a).data } b).data
        rw [upd_self, upd_of_ne hpair.ne]

theorem CacheInv.flush (h : CacheInv la s) (hp : s.pc p = .run) (ho : s.output = none)
    (hc : s.commit = some (p, .round install n tail (.flush a b))) :
    CacheInv la ((s.flush (CacheSys.dst install a b)).setCommit p
      (.round install n tail (if install then .unpin a b else .drop1 a b))) := by
  obtain ⟨hn, hle, hlt, hpair, hd, hfresh, hdata⟩ := h.commit p _ hc
  have hcore := h.core_at hc
  refine h.setCommit hc (stepOn_flush hcore (hpair.dst install)) ?_ rfl rfl ho
    (by rw [show (s.flush _).pc p = s.pc p from rfl, hp]; rfl) ?_
  · have hcore' := hcore.flush hp (hpair.dst install)
    cases install <;> exact hcore'
  · have hpair' : Pair la (s.flush (CacheSys.dst install a b)) p tail a b :=
      ⟨⟨hpair.log.holder, hpair.log.block⟩, ⟨hpair.home.holder, hpair.home.block⟩, hpair.ne⟩
    cases install
    · exact ⟨hn, hle, fun _ => hlt (by simp), hpair', upd_self .., (upd_of_ne hpair.ne.symm).trans hd, hfresh, hdata⟩
    · exact ⟨hn, hle, fun _ => hlt (by simp), hpair', (upd_of_ne hpair.ne).trans hd, upd_self .., rfl,
        upd_self .., hfresh, hdata⟩

theorem CacheInv.unpin (h : CacheInv la s) (hp : s.pc p = .run) (ho : s.output = none)
    (hc : s.commit = some (p, .round install n tail (.unpin a b))) :
    CacheInv la ((s.setBuf b { s.buf b with ref := (s.buf b).ref - 1 }).setCommit p
      (.round install n tail (.drop1 a b))) := by
  obtain ⟨hn, hle, hlt, hpair, hda, hdb, rfl, hdisk, hfresh, hdata⟩ := h.commit p _ hc
  have htail : tail < s.header.length := hn ▸ hlt (by simp)
  have hget : s.header.getD tail 0 = s.header[tail] := by
    rw [List.getD_eq_getElem?_getD, List.getElem?_eq_getElem htail]
    rfl
  have hdrop : s.header.drop tail = s.header.getD tail 0 :: s.header.drop (tail + 1) := by
    rw [hget]
    exact List.drop_eq_getElem_cons htail
  have hcore : CacheCore s (s.header.drop tail) := h.core_at hc
  have hnodup : (s.header.drop tail).Nodup := h.nodup.sublist (List.drop_sublist ..)
  rw [hdrop] at hcore hnodup
  have hheld {k : BlockId} {i : Fin NBUF} (hi : Held s p k i) :
      Held (s.setBuf b { s.buf b with ref := (s.buf b).ref - 1 }) p k i :=
    ⟨hi.holder, (sameData_setRef s.buf b _ i).1.trans hi.block⟩
  refine h.setCommit hc (stepOn_setRef s p b _)
    (hcore.unpin hp hpair.home (List.nodup_cons.1 hnodup).1 hdisk) rfl rfl ho
    (by rw [show (s.setBuf b _).pc p = s.pc p from rfl, hp]; rfl) ?_
  refine ⟨hn, hle, fun _ => hlt (by simp), ⟨hheld hpair.log, hheld hpair.home, hpair.ne⟩, hda, hdb, ?_, ?_⟩
  · exact (stepOn_setRef s p b _).fresh hpair.log.holder (by simp) hfresh
  · exact (sameData_setRef s.buf b _ a).2.2.trans (hdata.trans (sameData_setRef s.buf b _ b).2.2.symm)

theorem CacheInv.logWrite (h : CacheInv la s) (hp : s.pc p = .run) (ho : s.output = none)
    (hi : s.holder i = some p) (hdev : (s.buf i).block.1 = ROOTDEV)
    (hs : s.logWrite la i = some s') : CacheInv la s' := by
  unfold CacheSys.logWrite at hs
  dsimp only at hs
  by_cases hlimit : LOGBLOCKS ≤ s.header.length ∨ la.size - 1 ≤ s.header.length ∨ s.outstanding < 1
  · rw [if_pos hlimit] at hs
    cases hs
  rw [if_neg hlimit] at hs
  have hnone : s.commit = none := by
    by_contra hne
    have hquiet := h.quiet hne
    omega
  have hcore : CacheCore s s.header := pins_of_none hnone ▸ h.core
  by_cases hmem : (s.buf i).block.2 ∈ s.header
  · rw [if_pos hmem] at hs
    cases hs
    refine h.step_outside (stepOn_clean hi) (h.core.absorb hp hi ?_) rfl rfl
      (fun hne => absurd hnone hne) ho fun c hc => ?_
    · rw [pins_of_none hnone]
      exact ⟨hdev, hmem⟩
    · rw [hnone] at hc
      cases hc
  · rw [if_neg hmem] at hs
    cases hs
    have hheld : Held s p (ROOTDEV, (s.buf i).block.2) i := ⟨hi, Prod.ext hdev rfl⟩
    have hsame : SameCache { s.setBuf i { s.buf i with ref := (s.buf i).ref + 1 } with
        dirty := upd s.dirty i false }
      { s.setBuf i { s.buf i with ref := (s.buf i).ref + 1 } with
        header := s.header ++ [(s.buf i).block.2]
        dirty := upd s.dirty i false } := ⟨rfl, rfl, rfl, rfl, rfl, rfl⟩
    refine h.step ((stepOn_pin hi _).same_right hsame) ?_ ?_ (fun hne => absurd hnone hne) ?_ ?_ ?_
    · rw [pins_of_none (by exact hnone)]
      exact (hcore.pin hp hheld hmem).same hsame
    · rw [List.nodup_append]
      refine ⟨h.nodup, List.nodup_singleton _, ?_⟩
      intro b hb b' hb' he
      rw [he, List.mem_singleton.1 hb'] at hb
      exact hmem hb
    · intro q c _ hq
      exact absurd (hnone.symm.trans hq) (by simp)
    · intro c hq
      exact absurd (hnone.symm.trans hq) (by simp)
    · intro q k d hq
      exact absurd (ho.symm.trans hq) (by simp)

theorem CacheInv.clear (h : CacheInv la s) : CacheInv la { s with output := none } := by
  have hsame : SameCache s { s with output := none } := ⟨rfl, rfl, rfl, rfl, rfl, rfl⟩
  refine ⟨h.core.same hsame, h.nodup, h.quiet, h.target, fun q c hc => ?_, fun q k d hq => by cases hq⟩
  refine (h.commit q c hc).frame rfl (h.owns_none hc) fun i _ ho => ?_
  exact ⟨rfl, ⟨rfl, rfl, rfl, rfl, rfl, rfl⟩, ho⟩

section Moves

variable [DecidableEq P]

theorem CacheInv.drop1 (h : CacheInv la s) (hp : s.pc p = .run) (ho : s.output = none)
    (hc : s.commit = some (p, .round install n tail (.drop1 a b))) :
    CacheInv la ((s.unlock la p a false).setCommit p (.round install n tail (.drop2 b))) := by
  obtain ⟨hn, hle, hlt, hpair, hda, hdb, hfresh, -⟩ := h.commit p _ hc
  have hcore := h.core_at hc
  refine h.setCommit hc (stepOn_unlock hcore la hpair.log.holder false) ?_ rfl rfl ho
    (by rw [show (s.unlock la p a false).pc p = .unref a from upd_self ..]; rfl) ?_
  · have hcore' := hcore.unlock la hp hpair.log.holder hda false
    cases install <;> exact hcore'
  · refine ⟨hn, hle, fun _ => hlt (by simp), ⟨?_, hpair.home.block⟩, hdb, fun hinstall => ?_⟩
    · exact (upd_of_ne hpair.ne.symm).trans hpair.home.holder
    · subst hinstall
      exact (stepOn_unlock hcore la hpair.log.holder false).fresh hpair.home.holder
        (fun he => hpair.ne (Option.some.inj he)) hfresh

theorem CacheInv.drop2 (h : CacheInv la s) (hp : s.pc p = .run) (ho : s.output = none)
    (hc : s.commit = some (p, .round install n tail (.drop2 b))) :
    CacheInv la ((s.unlock la p b false).setCommit p (.round install n (tail + 1) .first)) := by
  obtain ⟨hn, -, hlt, hb, hdb, -⟩ := h.commit p _ hc
  have hcore := h.core_at hc
  refine h.setCommit hc (stepOn_unlock hcore la hb.holder false) ?_ rfl rfl ho
    (by rw [show (s.unlock la p b false).pc p = .unref b from upd_self ..]; rfl) ?_
  · have hcore' := hcore.unlock la hp hb.holder hdb false
    cases install <;> exact hcore'
  · exact ⟨hn, hlt (by simp), fun hne => absurd rfl hne, trivial⟩

theorem CacheInv.round (h : CacheInv la s) (hp : s.pc p = .run) (ho : s.output = none)
    {pc : RoundPc} (hc : s.commit = some (p, .round install n tail pc))
    (hs : s.roundStep la p install n tail pc = some s') : CacheInv la s' := by
  cases pc with
  | first =>
    rw [CacheSys.roundStep] at hs
    obtain ⟨hn, hle, -, -⟩ := h.commit p _ hc
    by_cases hlt : tail < n
    · rw [if_pos hlt] at hs
      refine h.get hp ho (fun c hc' => ?_) hs
      rw [hc] at hc'
      obtain rfl := congrArg Prod.snd (Option.some.inj hc')
      exact if_pos hlt
    · rw [if_neg hlt] at hs
      cases hs
      obtain rfl : tail = n := by omega
      have hcore := h.core_at hc
      refine h.setCommit hc (stepOn_refl s p) ?_ rfl rfl ho (by rw [hp]; rfl) ?_
      · cases install <;> exact hcore
      · cases install
        · trivial
        · exact hn
  | second a =>
    refine h.get hp ho (fun c hc' => ?_) hs
    rw [hc] at hc'
    obtain rfl := congrArg Prod.snd (Option.some.inj hc')
    rfl
  | copy a b =>
    cases hs
    exact h.copy hp ho hc
  | flush a b =>
    cases hs
    exact h.flush hp ho hc
  | unpin a b =>
    cases hs
    exact h.unpin hp ho hc
  | drop1 a b =>
    cases hs
    exact h.drop1 hp ho hc
  | drop2 b =>
    cases hs
    exact h.drop2 hp ho hc

theorem CacheInv.head (h : CacheInv la s) (hp : s.pc p = .run) (ho : s.output = none)
    {last : Bool} {pc : HeadPc} (hc : s.commit = some (p, .head last pc))
    (hs : s.headStep la p last pc = some s') : CacheInv la s' := by
  have hcore := h.core_at hc
  have hok := h.commit p _ hc
  cases pc with
  | read =>
    refine h.get hp ho (fun c hc' => ?_) hs
    rw [hc] at hc'
    obtain rfl := congrArg Prod.snd (Option.some.inj hc')
    rfl
  | put a =>
    cases hs
    have ha : Held s p la.head a := hok
    refine h.setCommit hc (stepOn_setData ha.holder _) (hcore.setData hp ha.holder _) rfl rfl ho
      (by rw [show (s.setData a _).pc p = s.pc p from rfl, hp]; rfl) ?_
    exact ha.setData ..
  | flush a =>
    cases hs
    have ha : Held s p la.head a := hok
    refine h.setCommit hc (stepOn_flush hcore ha.holder) (hcore.flush hp ha.holder) rfl rfl ho
      (by rw [show (s.flush a).pc p = s.pc p from rfl, hp]; rfl) ?_
    exact ⟨⟨ha.holder, ha.block⟩, upd_self ..⟩
  | drop a =>
    cases hs
    obtain ⟨ha, hda⟩ := hok
    refine h.setCommit hc (stepOn_unlock hcore la ha.holder false) ?_ rfl rfl ho
      (by rw [show (s.unlock la p a false).pc p = .unref a from upd_self ..]; rfl) ?_
    · have hcore' := hcore.unlock la hp ha.holder hda false
      cases last <;> exact hcore'
    · cases last
      · exact ⟨rfl, Nat.zero_le _, fun hne => absurd rfl hne, trivial⟩
      · trivial

theorem CacheInv.commitStep (h : CacheInv la s) (hp : s.pc p = .run) (ho : s.output = none)
    (hc : s.commit = some (p, c)) (hs : s.commitStep la p c = some s') : CacheInv la s' := by
  have hcore := h.core_at hc
  have hrun : (s.pc p).reads = none := by rw [hp]; rfl
  cases c with
  | start =>
    cases hs
    by_cases hlen : 0 < s.header.length
    · rw [if_pos hlen]
      exact h.setCommit hc (stepOn_refl s p) hcore rfl rfl ho hrun
        ⟨rfl, Nat.zero_le _, fun hne => absurd rfl hne, trivial⟩
    · rw [if_neg hlen]
      exact h.setCommit hc (stepOn_refl s p) hcore rfl rfl ho hrun trivial
  | round install n tail pc => exact h.round hp ho hc hs
  | head last pc => exact h.head hp ho hc hs
  | clear n =>
    cases hs
    have hn : n = s.header.length := h.commit p _ hc
    have hempty : s.header.drop n = [] := List.drop_eq_nil_of_le hn.ge
    have hsame : SameCache s ({ s with header := [] }.setCommit p (.head true .read)) :=
      ⟨rfl, rfl, rfl, rfl, rfl, rfl⟩
    refine h.step_commit ((stepOn_refl s p).same_right hsame) ?_ List.nodup_nil hc rfl rfl ho hrun trivial
    have hcore' : CacheCore s [] := hempty ▸ hcore
    exact hcore'.same hsame
  | finish =>
    cases hs
    have hsame : SameCache s { s with commit := none } := ⟨rfl, rfl, rfl, rfl, rfl, rfl⟩
    refine h.step ((stepOn_refl s p).same_right hsame) ?_ h.nodup (fun hne => absurd rfl hne) ?_ ?_ ?_
    · exact hcore.same hsame
    · intro q c _ hq
      cases hq
    · intro c hq
      cases hq
    · intro q k d hq
      rw [show ({ s with commit := none } : CacheSys P).output = none from ho] at hq
      cases hq

theorem CacheInv.call (h : CacheInv la s) (hp : s.pc p = .run) (ho : s.output = none)
    (hc : ∀ c, s.commit ≠ some (p, c)) {action : CacheAction} (hs : s.call la p action = some s') :
    CacheInv la s' := by
  cases action with
  | go => cases hs
  | read k => exact h.get hp ho (fun c hc' => absurd hc' (hc c)) hs
  | modify i data =>
    rw [CacheSys.call] at hs
    split_ifs at hs with hi
    cases hs
    exact h.step_outside (stepOn_setData hi data) (h.core.setData hp hi data) rfl rfl h.quiet ho hc
  | logWrite i =>
    rw [CacheSys.call] at hs
    split_ifs at hs with hi
    exact h.logWrite hp ho hi.1 hi.2 hs
  | release i =>
    rw [CacheSys.call] at hs
    split_ifs at hs with hi
    cases hs
    exact h.step_outside (stepOn_unlock h.core la hi.1 true) (h.core.unlock la hp hi.1 hi.2 true) rfl rfl
      h.quiet ho hc
  | beginOp =>
    rw [CacheSys.call] at hs
    split_ifs at hs with hlimit
    cases hs
    rw [not_or] at hlimit
    have hsame : SameCache s { s with outstanding := s.outstanding + 1 } := ⟨rfl, rfl, rfl, rfl, rfl, rfl⟩
    refine h.step_outside ((stepOn_refl s p).same_right hsame) (h.core.same hsame) rfl rfl ?_ ho hc
    intro hne
    exact absurd (Option.isSome_iff_ne_none.2 hne) hlimit.1
  | endOp =>
    have hs : s.endOp p = some s' := hs
    unfold CacheSys.endOp at hs
    split_ifs at hs with hlimit hlast
    · cases hs
      rw [not_or] at hlimit
      have hnone : s.commit = none := by simpa using hlimit.2
      have hsame : SameCache s { s with outstanding := 0, commit := some (p, .start) } :=
        ⟨rfl, rfl, rfl, rfl, rfl, rfl⟩
      refine h.step ((stepOn_refl s p).same_right hsame) ?_ h.nodup (fun _ => rfl) ?_ ?_ ?_
      · have hcore := pins_of_none hnone ▸ h.core
        exact hcore.same hsame
      · intro q c hq hq'
        exact absurd (congrArg Prod.fst (Option.some.inj hq')).symm hq
      · intro c hq
        obtain rfl := congrArg Prod.snd (Option.some.inj hq)
        refine ⟨trivial, fun k hk => ?_⟩
        rw [show ({ s with outstanding := 0, commit := some (p, .start) } : CacheSys P).pc p = .run
          from hp] at hk
        cases hk
      · intro q k d hq
        exact absurd (ho.symm.trans hq) (by simp)
    · cases hs
      rw [not_or] at hlimit
      have hnone : s.commit = none := by simpa using hlimit.2
      have hsame : SameCache s { s with outstanding := s.outstanding - 1 } :=
        ⟨rfl, rfl, rfl, rfl, rfl, rfl⟩
      exact h.step_outside ((stepOn_refl s p).same_right hsame) (h.core.same hsame) rfl rfl
        (fun hne => absurd hnone hne) ho hc

theorem CacheInv.stepOf (h : CacheInv la s) (ho : s.output = none) {action : CacheAction}
    (hs : s.step la p action = some s') : CacheInv la s' := by
  unfold CacheSys.step at hs
  cases hp : s.pc p with
  | lock k i =>
    rw [hp] at hs
    dsimp only at hs
    split_ifs at hs with hi
    cases hs
    exact h.lock hp ho hi
  | check k i =>
    rw [hp] at hs
    dsimp only at hs
    split_ifs at hs with hv
    · cases hs
      exact h.check hp hv
    · cases hs
      exact h.request hp ho (by simpa using hv)
  | load k i =>
    rw [hp] at hs
    cases hs
    exact h.load hp ho
  | fill k i =>
    rw [hp] at hs
    cases hs
    exact h.fill hp
  | unref i =>
    rw [hp] at hs
    cases hs
    exact h.unref hp ho
  | run =>
    rw [hp] at hs
    cases hc : s.commit with
    | none =>
      rw [hc] at hs
      exact h.call hp ho (fun c hc' => by rw [hc] at hc'; cases hc') hs
    | some x =>
      obtain ⟨q, c⟩ := x
      rw [hc] at hs
      dsimp only at hs
      by_cases hq : q = p
      · rw [if_pos hq] at hs
        rw [hq] at hc
        exact h.commitStep hp ho hc hs
      · rw [if_neg hq] at hs
        refine h.call hp ho (fun c' hc' => hq ?_) hs
        exact congrArg Prod.fst (Option.some.inj (hc.symm.trans hc'))

theorem CacheInv.next (h : CacheInv la s) {l : P × CacheAction} (hs : CacheStep la s l s') :
    CacheInv la s' :=
  h.clear.stepOf rfl hs

end Moves

theorem cacheInv_init (h : CacheInit s) : CacheInv la s := by
  have hrun : (fun p => (s.pc p).waits) = fun _ => none := by
    funext p
    rw [h.pc p]
    rfl
  have hpins : s.pins = [] := (pins_of_none h.commit).trans h.header
  refine ⟨⟨?_, ?_, fun p => by rw [h.pc p]; trivial, fun i p hi => ?_⟩, ?_, ?_, ?_, ?_, ?_⟩
  · rw [hrun, hpins]
    refine ⟨h.head, h.unique, fun i hi hz => ⟨h.ref i, h.unused i hi hz⟩, fun i => ?_, ?_⟩
    · have hno : ¬Pinned [] (s.buf i).block := fun hp => List.not_mem_nil hp.2
      rw [h.ref i, refCount, uses_none, h.holder i, if_neg hno]
      rfl
    · intro b hb
      cases hb
  · refine ⟨fun i _ => ⟨h.dirty i, fun hv => ?_⟩, fun i hv _ => Or.inr (h.data i hv).symm, fun k _ => ?_⟩
    · rw [h.left, h.data i hv]
    · rw [h.left]
  · rw [h.holder i] at hi
    cases hi
  · rw [h.header]
    exact List.nodup_nil
  · exact fun hne => absurd h.commit hne
  · intro p c hc
    rw [h.commit] at hc
    cases hc
  · intro p c hc
    rw [h.commit] at hc
    cases hc
  · intro p k d hd
    rw [h.output] at hd
    cases hd

theorem cacheInv_reachable [DecidableEq P] (h : Reachable CacheInit (CacheStep la) s) :
    CacheInv la s :=
  h.invariant (I := CacheInv la) (fun _ => cacheInv_init) fun _ _ _ hinv => hinv.next

end Steps

end Octopos
