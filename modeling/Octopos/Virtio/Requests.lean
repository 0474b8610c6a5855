import Octopos.Virtio.Descriptors

/-!
# Disk requests do not mix

What the driver has handed over and not seen come back is outstanding: it is in the `avail` ring,
with the device or in the `used` ring. A step moves a request from one of these places to the next,
so the collection `outstanding` only changes when a request is submitted or its completion is
handled. Its entries are the requests in flight whose buffer is still marked (`DiskInv`).
-/

namespace Octopos

/-! ## The system -/

variable {P : Type} {s s' : DiskSys P} {p q : P} {r : Request}
variable {f : DiskFrame} {t : DiskSys P}

/-- The requests that the driver has handed over and not seen come back. -/
def DiskSys.outstanding (s : DiskSys P) : Multiset (DescId × ℕ) :=
  (s.submitted.drop s.fetched : Multiset (DescId × ℕ)) + s.working + s.completed.drop s.handled

structure DiskInv (s : DiskSys P) : Prop where
  nodup : ∀ p r, (s.frame p).request = some r → r.ids.Nodup
  taken : ∀ p r, (s.frame p).request = some r → ∀ i ∈ r.ids, s.disk.free i = false
  disjoint : ∀ p q r r' i, (s.frame p).request = some r → (s.frame q).request = some r' →
    i ∈ r.ids → i ∈ r'.ids → p = q
  owner : ∀ i, s.disk.free i = false → ∃ p r, (s.frame p).request = some r ∧ i ∈ r.ids
  clean : ∀ i, s.disk.free i = true → s.disk.desc i = {}
  chained : ∀ p r, (s.frame p).request = some r → Chained s.disk r
  buf : ∀ p q c c', (s.frame p).call = some c → (s.frame q).call = some c' → c.buf = c'.buf → p = q
  pending : ∀ p r, (s.frame p).request = some r → s.busy r.call.buf = true →
    (r.i, r.number) ∈ s.outstanding
  done : ∀ p r, (s.frame p).request = some r → s.busy r.call.buf = false →
    (r.i, r.number) ∈ s.completed
  origin : ∀ e ∈ s.outstanding, ∃ p r, (s.frame p).request = some r ∧ e = (r.i, r.number) ∧
    s.busy r.call.buf = true
  heads : (s.outstanding.map Prod.fst).Nodup
  number : ∀ p r, (s.frame p).request = some r → s.submitted[r.number]? = some (r.i, r.number)
  numbered : ∀ n (e : DescId × ℕ), s.submitted[n]? = some e → e.2 = n
  avail : RingOk (fun e => UInt16.ofNat e.1.val) s.disk.avail.ring s.disk.avail.idx s.seen s.submitted
    s.fetched
  used : RingOk (fun e => UInt32.ofNat e.1.val) s.disk.used.ring s.disk.used.idx s.disk.usedIdx
    s.completed s.handled
  running : s.panicked = false

theorem DiskFrame.call_of_request (h : f.request = some r) : f.call = some r.call := by
  cases f <;> cases h <;> rfl

theorem DiskInv.of_frames (h : DiskInv s) (ht : t = { s with frame := t.frame, owner := t.owner })
    (hreq : ∀ q, (t.frame q).request = (s.frame q).request)
    (hbuf : ∀ p q c c', (t.frame p).call = some c → (t.frame q).call = some c' → c.buf = c'.buf →
      p = q) : DiskInv t := by
  rw [ht]
  refine ⟨?_, ?_, ?_, ?_, h.clean, ?_, hbuf, ?_, ?_, ?_, h.heads, ?_, h.numbered, h.avail, h.used,
    h.running⟩ <;> simp only [hreq]
  · exact h.nodup
  · exact h.taken
  · exact h.disjoint
  · exact h.owner
  · exact h.chained
  · exact h.pending
  · exact h.done
  · exact h.origin
  · exact h.number

theorem DiskInv.eq_of_head (h : DiskInv s) {r' : Request} (hp : (s.frame p).request = some r)
    (hq : (s.frame q).request = some r') (hi : r.i = r'.i) : p = q :=
  h.disjoint p q r r' r.i hp hq (by simp [Request.ids]) (by simp [Request.ids, hi])

theorem DiskInv.card_heads (h : DiskInv s) {i : DescId} (hi : ∀ e ∈ s.outstanding, e.1 ≠ i) :
    s.outstanding.card < NUM := by
  have hnodup : (i ::ₘ s.outstanding.map Prod.fst).Nodup := by
    refine Multiset.nodup_cons.2 ⟨fun hmem => ?_, h.heads⟩
    obtain ⟨e, he, hei⟩ := Multiset.mem_map.1 hmem
    exact hi e he hei
  have hcard := Finset.card_le_univ (⟨_, hnodup⟩ : Finset DescId)
  rw [Fintype.card_fin, Finset.card_mk, Multiset.card_cons, Multiset.card_map] at hcard
  exact hcard

theorem DiskInv.card_outstanding (h : DiskInv s) : s.outstanding.card ≤ NUM := by
  have hcard := Finset.card_le_univ (⟨_, h.heads⟩ : Finset DescId)
  rwa [Fintype.card_fin, Finset.card_mk, Multiset.card_map] at hcard

/-! ## Submitting a request -/

theorem VirtioDisk.format_other {d : VirtioDisk} {x : DescId} (hx : x ∉ r.ids) :
    ((d.format r.i r.j r.k r.call.buf r.call.sector r.call.write).publish r.i).desc x = d.desc x ∧
    ((d.format r.i r.j r.k r.call.buf r.call.sector r.call.write).publish r.i).info x = d.info x ∧
    ((d.format r.i r.j r.k r.call.buf r.call.sector r.call.write).publish r.i).ops x = d.ops x := by
  simp only [Request.ids, List.mem_cons, List.not_mem_nil, or_false, not_or] at hx
  obtain ⟨hi, hj, hk⟩ := hx
  refine ⟨?_, upd_of_ne hi, upd_of_ne hi⟩
  exact (upd_of_ne hk).trans ((upd_of_ne hj).trans (upd_of_ne hi))

section Steps

variable [DecidableEq P]

theorem DiskInv.submit (h : DiskInv s) (hp : s.frame p = .alloc r.call) (hnodup : r.ids.Nodup)
    (hfree : ∀ x ∈ r.ids, s.disk.free x = true) (hnumber : r.number = s.submitted.length) :
    DiskInv (s.submit p (s.disk.take r.ids) r) := by
  have hnone : (s.frame p).request = none := by rw [hp]; rfl
  have hcall : (s.frame p).call = some r.call := by rw [hp]; rfl
  have hreq : ∀ {q r'}, ((s.submit p (s.disk.take r.ids) r).frame q).request = some r' →
      q = p ∧ r' = r ∨ q ≠ p ∧ (s.frame q).request = some r' := by
    intro q r' hq
    change (upd s.frame p (.wait r) q).request = some r' at hq
    by_cases hqp : q = p
    · rw [hqp, upd_self] at hq
      exact .inl ⟨hqp, (Option.some.inj hq).symm⟩
    · rw [upd_of_ne hqp] at hq
      exact .inr ⟨hqp, hq⟩
  have hself : ((s.submit p (s.disk.take r.ids) r).frame p).request = some r := by
    change (upd s.frame p (.wait r) p).request = some r
    rw [upd_self]
    rfl
  have hother : ∀ {q r'}, q ≠ p → (s.frame q).request = some r' →
      ((s.submit p (s.disk.take r.ids) r).frame q).request = some r' := by
    intro q r' hq hr'
    change (upd s.frame p (.wait r) q).request = some r'
    rwa [upd_of_ne hq]
  have hapart : ∀ {q r' x}, (s.frame q).request = some r' → x ∈ r'.ids → x ∉ r.ids := by
    intro q r' x hq hx hxr
    have htaken := h.taken q r' hq x hx
    rw [hfree x hxr] at htaken
    cases htaken
  have hbuf : ∀ {q r'}, q ≠ p → (s.frame q).request = some r' → r'.call.buf ≠ r.call.buf :=
    fun hq hr' heq => hq (h.buf _ _ _ _ (DiskFrame.call_of_request hr') hcall heq)
  have hheads : ∀ e ∈ s.outstanding, e.1 ≠ r.i := by
    intro e he hei
    obtain ⟨q, r', hq, rfl, -⟩ := h.origin e he
    exact hapart hq (show r'.i ∈ r'.ids by simp [Request.ids]) (by simp [Request.ids, ← hei])
  have houtstanding : (s.submit p (s.disk.take r.ids) r).outstanding = (r.i, r.number) ::ₘ s.outstanding := by
    unfold DiskSys.outstanding DiskSys.submit
    dsimp only [DiskSys.setFrame]
    rw [List.drop_append_of_le_length h.avail.le, ← Multiset.coe_add, Multiset.coe_singleton,
      ← Multiset.singleton_add]
    abel
  have hmem : ∀ e ∈ s.outstanding, e ∈ (s.submit p (s.disk.take r.ids) r).outstanding :=
    fun e he => houtstanding ▸ Multiset.mem_cons_of_mem he
  have hbusy : ∀ {q r'}, q ≠ p → (s.frame q).request = some r' →
      (s.submit p (s.disk.take r.ids) r).busy r'.call.buf = s.busy r'.call.buf :=
    fun hq hr' => upd_of_ne (hbuf hq hr')
  refine ⟨fun q r' hq => ?_, fun q r' hq x hx => ?_, fun q q' r1 r2 x hq hq' hx hx' => ?_,
    fun x hx => ?_, fun x hx => ?_, fun q r' hq => ?_, ?_, fun q r' hq hb => ?_,
    fun q r' hq hb => ?_, fun e he => ?_, ?_, fun q r' hq => ?_, fun m e he => ?_, ?_, h.used,
    h.running⟩
  · rcases hreq hq with ⟨-, rfl⟩ | ⟨-, hq⟩
    · exact hnodup
    · exact h.nodup q r' hq
  · change (s.disk.free x && !r.ids.contains x) = false
    rcases hreq hq with ⟨-, rfl⟩ | ⟨-, hq⟩
    · simp [hx]
    · rw [h.taken q r' hq x hx, Bool.false_and]
  · rcases hreq hq with ⟨h1, rfl⟩ | ⟨-, h1⟩ <;> rcases hreq hq' with ⟨h2, rfl⟩ | ⟨-, h2⟩
    · rw [h1, h2]
    · exact absurd hx (hapart h2 hx')
    · exact absurd hx' (hapart h1 hx)
    · exact h.disjoint q q' r1 r2 x h1 h2 hx hx'
  · change (s.disk.free x && !r.ids.contains x) = false at hx
    by_cases hxr : x ∈ r.ids
    · exact ⟨p, r, hself, hxr⟩
    · rw [List.contains_eq_mem, decide_eq_false hxr, Bool.not_false, Bool.and_true] at hx
      obtain ⟨q, r', hq, hx⟩ := h.owner x hx
      refine ⟨q, r', hother ?_ hq, hx⟩
      rintro rfl
      rw [hnone] at hq
      cases hq
  · change (s.disk.free x && !r.ids.contains x) = true at hx
    rw [Bool.and_eq_true, Bool.not_eq_true', List.contains_eq_mem, decide_eq_false_iff_not] at hx
    exact (VirtioDisk.format_other hx.2).1.trans (h.clean x hx.1)
  · rcases hreq hq with ⟨-, rfl⟩ | ⟨-, hq⟩
    · exact chained_format hnodup
    · have hhead := VirtioDisk.format_other (d := s.disk.take r.ids)
        (hapart hq (show r'.i ∈ r'.ids by simp [Request.ids]))
      exact (h.chained q r' hq).congr
        (fun x hx => (VirtioDisk.format_other (d := s.disk.take r.ids) (hapart hq hx)).1) hhead.2.1
        hhead.2.2
  · have hcalls : ∀ q, ((s.submit p (s.disk.take r.ids) r).frame q).call = (s.frame q).call := by
      intro q
      change (upd s.frame p (.wait r) q).call = _
      by_cases hqp : q = p
      · rw [hqp, upd_self, hcall]
        rfl
      · rw [upd_of_ne hqp]
    simp only [hcalls]
    exact h.buf
  · rcases hreq hq with ⟨-, rfl⟩ | ⟨hne, hq⟩
    · exact houtstanding ▸ Multiset.mem_cons_self _ _
    · exact hmem _ (h.pending q r' hq (hbusy hne hq ▸ hb))
  · rcases hreq hq with ⟨-, rfl⟩ | ⟨hne, hq⟩
    · change upd s.busy r'.call.buf true r'.call.buf = false at hb
      rw [upd_self] at hb
      cases hb
    · exact h.done q r' hq (hbusy hne hq ▸ hb)
  · rw [houtstanding, Multiset.mem_cons] at he
    rcases he with rfl | he
    · exact ⟨p, r, hself, rfl, upd_self ..⟩
    · obtain ⟨q, r', hq, heq, hb⟩ := h.origin e he
      have hne : q ≠ p := by
        rintro rfl
        rw [hnone] at hq
        cases hq
      exact ⟨q, r', hother hne hq, heq, (hbusy hne hq).trans hb⟩
  · rw [houtstanding, Multiset.map_cons, Multiset.nodup_cons]
    refine ⟨fun hmem => ?_, h.heads⟩
    obtain ⟨e, he, hei⟩ := Multiset.mem_map.1 hmem
    exact hheads e he hei
  · change (s.submitted ++ [(r.i, r.number)])[r'.number]? = _
    rcases hreq hq with ⟨-, rfl⟩ | ⟨-, hq⟩
    · rw [hnumber]
      simp
    · have hold := h.number q r' hq
      rw [List.getElem?_append_left (List.getElem?_eq_some_iff.1 hold).1]
      exact hold
  · change (s.submitted ++ [(r.i, r.number)])[m]? = some e at he
    rcases Nat.lt_trichotomy m s.submitted.length with hm | rfl | hm
    · rw [List.getElem?_append_left hm] at he
      exact h.numbered m e he
    · rw [List.getElem?_concat_length] at he
      rw [← Option.some.inj he]
      exact hnumber
    · rw [List.getElem?_eq_none (by simp; omega)] at he
      cases he
  · have hlen : s.submitted.length < s.fetched + NUM := by
      have hcard := h.card_heads hheads
      rw [DiskSys.outstanding, Multiset.card_add, Multiset.card_add, Multiset.coe_card, List.length_drop] at hcard
      omega
    exact h.avail.push hlen (r.i, r.number)

/-! ## The end of a request -/

theorem DiskInv.finish (h : DiskInv s) (hp : (s.frame p).request = some r)
    (hb : s.busy r.call.buf = false)
    (hframe : ∀ q, (t.frame q).request = if q = p then none else (s.frame q).request)
    (hcall : ∀ q c, (t.frame q).call = some c → (s.frame q).call = some c)
    (ht : t =
      { s with
        disk :=
          r.ids.foldl VirtioDisk.freeDesc { s.disk with
            info := upd s.disk.info r.i { s.disk.info r.i with bufId := none } }
        frame := t.frame
        owner := t.owner }) : DiskInv t := by
  have hnodup := h.nodup p r hp
  have hreq : ∀ {q r'}, (t.frame q).request = some r' → q ≠ p ∧ (s.frame q).request = some r' := by
    intro q r' hq
    rw [hframe] at hq
    split_ifs at hq with hqp
    exact ⟨hqp, hq⟩
  have hapart : ∀ {q r' x}, q ≠ p → (s.frame q).request = some r' → x ∈ r'.ids → x ∉ r.ids :=
    fun hne hq hx hxr => hne (h.disjoint _ _ _ _ _ hq hp hx hxr)
  have hdisk : t.disk =
      r.ids.foldl VirtioDisk.freeDesc { s.disk with
        info := upd s.disk.info r.i { s.disk.info r.i with bufId := none } } := by
    rw [ht]
  rw [foldl_freeDesc] at hdisk
  have houtstanding : t.outstanding = s.outstanding := by rw [ht]; rfl
  have hbusy : t.busy = s.busy := by rw [ht]
  refine ⟨fun q r' hq => h.nodup q r' (hreq hq).2, fun q r' hq x hx => ?_,
    fun q q' r1 r2 x hq hq' hx hx' => h.disjoint q q' r1 r2 x (hreq hq).2 (hreq hq').2 hx hx',
    fun x hx => ?_, fun x hx => ?_, fun q r' hq => ?_,
    fun q q' c c' hq hq' => h.buf q q' c c' (hcall q c hq) (hcall q' c' hq'),
    fun q r' hq hb => ?_, fun q r' hq hb => ?_, fun e he => ?_, ?_, fun q r' hq => ?_, ?_, ?_, ?_, ?_⟩
  · obtain ⟨hne, hq⟩ := hreq hq
    rw [hdisk]
    dsimp only
    rw [if_neg (hapart hne hq hx)]
    exact h.taken q r' hq x hx
  · rw [hdisk] at hx
    dsimp only at hx
    split_ifs at hx with hxr
    obtain ⟨q, r', hq, hx⟩ := h.owner x hx
    have hne : q ≠ p := by
      rintro rfl
      rw [hp, Option.some.injEq] at hq
      exact hxr (hq ▸ hx)
    exact ⟨q, r', by rw [hframe, if_neg hne]; exact hq, hx⟩
  · rw [hdisk] at hx ⊢
    dsimp only at hx ⊢
    split_ifs at hx ⊢ with hxr
    · rfl
    · exact h.clean x hx
  · obtain ⟨hne, hq⟩ := hreq hq
    have hhead : r'.i ≠ r.i := fun heq => hne (h.eq_of_head hq hp heq)
    rw [hdisk]
    exact (h.chained q r' hq).congr (fun x hx => if_neg (hapart hne hq hx)) (upd_of_ne hhead) rfl
  · rw [houtstanding]
    exact h.pending q r' (hreq hq).2 (hbusy ▸ hb)
  · rw [ht]
    exact h.done q r' (hreq hq).2 (hbusy ▸ hb)
  · rw [houtstanding] at he
    obtain ⟨q, r', hq, heq, hb'⟩ := h.origin e he
    have hne : q ≠ p := by
      rintro rfl
      rw [hp, Option.some.injEq] at hq
      rw [← hq, hb] at hb'
      cases hb'
    exact ⟨q, r', by rw [hframe, if_neg hne]; exact hq, heq, hbusy ▸ hb'⟩
  · rw [houtstanding]
    exact h.heads
  · rw [ht]
    exact h.number q r' (hreq hq).2
  · rw [ht]
    exact h.numbered
  · rw [hdisk]
    rw [ht]
    exact h.avail
  · rw [hdisk]
    rw [ht]
    exact h.used
  · rw [ht]
    exact h.running

/-! ## The device and the interrupt handler -/

section

omit [DecidableEq P]

theorem DiskInv.move (h : DiskInv s) (ht : t =
      { s with
        disk := { s.disk with used := t.disk.used }
        seen := t.seen
        working := t.working
        fetched := t.fetched
        completed := t.completed })
    (hout : t.outstanding = s.outstanding) (hcompleted : s.completed ⊆ t.completed)
    (havail : RingOk (fun e => UInt16.ofNat e.1.val) s.disk.avail.ring s.disk.avail.idx t.seen
      s.submitted t.fetched)
    (hused : RingOk (fun e => UInt32.ofNat e.1.val) t.disk.used.ring t.disk.used.idx s.disk.usedIdx
      t.completed s.handled) : DiskInv t := by
  have hframe : t.frame = s.frame := by rw [ht]
  have hbusy : t.busy = s.busy := by rw [ht]
  have hsubmitted : t.submitted = s.submitted := by rw [ht]
  have hdisk : t.disk = { s.disk with used := t.disk.used } := by rw [ht]
  refine ⟨?_, ?_, ?_, ?_, ?_, ?_, ?_, ?_, ?_, ?_, ?_, ?_, ?_, ?_, ?_, ?_⟩
  · rw [hframe]
    exact h.nodup
  · rw [hframe, hdisk]
    exact h.taken
  · rw [hframe]
    exact h.disjoint
  · rw [hframe, hdisk]
    exact h.owner
  · rw [hdisk]
    exact h.clean
  · rw [hframe, hdisk]
    exact fun p r hp => (h.chained p r hp).congr (fun _ _ => rfl) rfl rfl
  · rw [hframe]
    exact h.buf
  · rw [hframe, hbusy, hout]
    exact h.pending
  · rw [hframe, hbusy]
    exact fun p r hp hb => hcompleted (h.done p r hp hb)
  · rw [hframe, hbusy, hout]
    exact h.origin
  · rw [hout]
    exact h.heads
  · rw [hframe, hsubmitted]
    exact h.number
  · rw [hsubmitted]
    exact h.numbered
  · rw [hdisk, hsubmitted]
    exact havail
  · rw [ht]
    exact hused
  · rw [ht]
    exact h.running

theorem DiskInv.fetch (h : DiskInv s) (hs : s.fetch = some s') : DiskInv s' := by
  unfold DiskSys.fetch at hs
  split_ifs at hs with hne
  have hlt := h.avail.seen_ne_iff.1 hne
  rw [h.avail.front hlt, toNat_ofNat_descId, descId_val, List.getElem?_eq_getElem hlt] at hs
  cases hs
  refine h.move rfl ?_ (fun e he => he) (h.avail.pop hlt) h.used
  unfold DiskSys.outstanding
  dsimp only
  rw [List.drop_eq_getElem_cons hlt, ← Multiset.coe_add, Multiset.coe_singleton,
    ← Multiset.cons_coe, ← Multiset.singleton_add]
  change _ + (_ + ({s.submitted[s.fetched]} : Multiset (DescId × ℕ))) + _ = _
  abel

theorem DiskInv.complete (h : DiskInv s) {n : ℕ} (hs : s.complete n = some s') : DiskInv s' := by
  obtain ⟨e, he, hs⟩ := Option.bind_eq_some_iff.1 hs
  cases hs
  have hperm : (s.working : Multiset (DescId × ℕ)) = e ::ₘ (s.working.eraseIdx n : List _) := by
    obtain ⟨hn, rfl⟩ := List.getElem?_eq_some_iff.1 he
    exact Multiset.coe_eq_coe.2 (List.getElem_cons_eraseIdx_perm hn).symm
  have hroom : s.completed.length < s.handled + NUM := by
    have hcard := h.card_outstanding
    rw [DiskSys.outstanding, hperm, Multiset.card_add, Multiset.card_add, Multiset.card_cons,
      Multiset.coe_card (s.completed.drop s.handled), List.length_drop] at hcard
    omega
  refine h.move rfl ?_ (List.subset_append_left _ _) h.avail (h.used.push hroom e)
  unfold DiskSys.outstanding
  dsimp only
  rw [hperm, List.drop_append_of_le_length h.used.le, ← Multiset.coe_add, Multiset.coe_singleton,
    ← Multiset.singleton_add]
  abel

theorem wakeBuf_request (b : BufId) (q : P) :
    ((s.wakeBuf b).frame q).request = (s.frame q).request ∧
    ((s.wakeBuf b).frame q).call = (s.frame q).call := by
  unfold DiskSys.wakeBuf
  dsimp only
  cases hf : s.frame q with
  | waitSleep r =>
    dsimp only
    split_ifs <;> exact ⟨rfl, rfl⟩
  | _ => exact ⟨rfl, rfl⟩

theorem wakeFree_request (freed : List DescId) (q : P) :
    ((s.wakeFree freed).frame q).request = (s.frame q).request ∧
    ((s.wakeFree freed).frame q).call = (s.frame q).call := by
  unfold DiskSys.wakeFree
  dsimp only
  cases hf : s.frame q with
  | allocSleep c =>
    dsimp only
    split_ifs <;> exact ⟨rfl, rfl⟩
  | _ => exact ⟨rfl, rfl⟩

/-- The completion that the handler finds belongs to a request in flight, and its buffer is no
longer marked. -/
theorem DiskInv.handled (h : DiskInv s) (hlt : s.handled < s.completed.length)
    (hp : (s.frame p).request = some r)
    (he : s.completed.get ⟨s.handled, hlt⟩ = (r.i, r.number)) :
    DiskInv { s.wakeBuf r.call.buf with
      busy := upd s.busy r.call.buf false
      disk := { s.disk with usedIdx := s.disk.usedIdx + 1 }
      handled := s.handled + 1 } := by
  have hout : s.outstanding = (r.i, r.number) ::ₘ DiskSys.outstanding { s.wakeBuf r.call.buf with
      busy := upd s.busy r.call.buf false
      disk := { s.disk with usedIdx := s.disk.usedIdx + 1 }
      handled := s.handled + 1 } := by
    unfold DiskSys.outstanding
    rw [List.drop_eq_getElem_cons hlt, ← Multiset.cons_coe, ← Multiset.singleton_add]
    rw [List.get_eq_getElem] at he
    rw [he, ← Multiset.singleton_add]
    dsimp only [DiskSys.wakeBuf]
    abel
  have hheads := h.heads
  rw [hout, Multiset.map_cons, Multiset.nodup_cons] at hheads
  have hbuf : ∀ {q r'}, (s.frame q).request = some r' → r'.call.buf = r.call.buf → q = p :=
    fun hq heq => h.buf _ _ _ _ (DiskFrame.call_of_request hq) (DiskFrame.call_of_request hp) heq
  refine ⟨?_, ?_, ?_, ?_, h.clean, ?_, ?_, fun q r' hq hb => ?_, fun q r' hq hb => ?_,
    fun e he' => ?_, hheads.2, ?_, h.numbered, h.avail, h.used.pop hlt, h.running⟩ <;>
    simp only [(wakeBuf_request _ _).1, (wakeBuf_request _ _).2] at *
  · exact h.nodup
  · exact h.taken
  · exact h.disjoint
  · exact h.owner
  · exact fun q r' hq => (h.chained q r' hq).congr (fun _ _ => rfl) rfl rfl
  · exact h.buf
  · have hne : r'.call.buf ≠ r.call.buf := by
      intro heq
      rw [heq, upd_self] at hb
      cases hb
    rw [upd_of_ne hne] at hb
    have hmem := h.pending q r' hq hb
    rw [hout, Multiset.mem_cons] at hmem
    rcases hmem with heq | hmem
    · have hqp := h.eq_of_head hq hp (Prod.mk.inj heq).1
      rw [hqp, hp, Option.some.injEq] at hq
      exact absurd (by rw [hq]) hne
    · exact hmem
  · by_cases heq : r'.call.buf = r.call.buf
    · have hqp := hbuf hq heq
      rw [hqp, hp, Option.some.injEq] at hq
      rw [← hq, ← he]
      exact List.get_mem ..
    · rw [upd_of_ne heq] at hb
      exact h.done q r' hq hb
  · obtain ⟨q, r', hq, heq, hb⟩ := h.origin e (hout ▸ Multiset.mem_cons_of_mem he')
    refine ⟨q, r', hq, heq, ?_⟩
    rw [upd_of_ne]
    · exact hb
    · intro hsame
      have hqp := hbuf hq hsame
      rw [hqp, hp, Option.some.injEq] at hq
      refine hheads.1 (Multiset.mem_map.2 ⟨e, he', ?_⟩)
      rw [heq, hq]
  · exact h.number

theorem DiskInv.handleStep_eq (h : DiskInv s) (hlt : s.handled < s.completed.length) :
    ∃ p r, (s.frame p).request = some r ∧ s.completed.get ⟨s.handled, hlt⟩ = (r.i, r.number) ∧
      s.handleStep =
        { s.wakeBuf r.call.buf with
          busy := upd s.busy r.call.buf false
          disk := { s.disk with usedIdx := s.disk.usedIdx + 1 }
          handled := s.handled + 1 } := by
  have hmem : s.completed.get ⟨s.handled, hlt⟩ ∈ s.outstanding := by
    unfold DiskSys.outstanding
    rw [Multiset.mem_add, List.drop_eq_getElem_cons hlt]
    exact .inr List.mem_cons_self
  obtain ⟨p, r, hp, he, hb⟩ := h.origin _ hmem
  have hid : (UInt32.ofNat r.i.val).toNat = r.i.val := by
    have h8 : NUM = 8 := rfl
    have := r.i.isLt
    rw [UInt32.toNat_ofNat']
    omega
  refine ⟨p, r, hp, he, ?_⟩
  unfold DiskSys.handleStep
  rw [if_pos (h.used.seen_ne_iff.2 hlt), h.used.front hlt, he]
  dsimp only
  rw [hid, descId_val, Option.bind_some, (h.chained p r hp).buf]

theorem DiskInv.handle (h : DiskInv s) : DiskInv s.handleStep := by
  by_cases hlt : s.handled < s.completed.length
  · obtain ⟨p, r, hp, he, heq⟩ := h.handleStep_eq hlt
    rw [heq]
    exact h.handled hlt hp he
  · rw [DiskSys.handleStep, if_neg fun hne => hlt (h.used.seen_ne_iff.1 hne)]
    exact h.of_frames rfl (fun _ => rfl) h.buf

end

theorem upd_request (hf : f.request = (s.frame p).request) (q : P) :
    (upd s.frame p f q).request = (s.frame q).request := by
  by_cases hq : q = p
  · rw [hq, upd_self, hf]
  · rw [upd_of_ne hq]

theorem upd_call (hf : f.call = (s.frame p).call) (q : P) :
    (upd s.frame p f q).call = (s.frame q).call := by
  by_cases hq : q = p
  · rw [hq, upd_self, hf]
  · rw [upd_of_ne hq]

theorem DiskInv.setFrame (h : DiskInv s) (hreq : f.request = (s.frame p).request)
    (hcall : f.call = (s.frame p).call) (owner : Option (DiskOwner P)) :
    DiskInv { s.setFrame p f with owner := owner } := by
  refine h.of_frames rfl (upd_request hreq) ?_
  change ∀ p' q c c', (upd s.frame p f p').call = some c → (upd s.frame p f q).call = some c' → _
  simp only [upd_call hcall]
  exact h.buf

theorem DiskInv.acquire (h : DiskInv s) (hreq : f.request = (s.frame p).request)
    (hcall : f.call = (s.frame p).call) (hs : s.acquire p f = some s') : DiskInv s' := by
  unfold DiskSys.acquire at hs
  split_ifs at hs
  cases hs
  exact h.setFrame hreq hcall _

omit [DecidableEq P] in
theorem DiskInv.wakeFree (h : DiskInv s) (freed : List DescId) : DiskInv (s.wakeFree freed) := by
  refine h.of_frames rfl (fun q => (wakeFree_request freed q).1) ?_
  simp only [wakeFree_request]
  exact h.buf

theorem DiskInv.allocStep (h : DiskInv s) {c : DiskCall} (hp : s.frame p = .alloc c) :
    DiskInv (s.allocStep p c) := by
  unfold DiskSys.allocStep
  rcases alloc3Desc_spec h.clean with ⟨i, j, k, heq, hnodup, hfree⟩ | ⟨e, freed, heq⟩
  · rw [heq]
    exact h.submit (r := ⟨c, i, j, k, s.submitted.length⟩) hp hnodup hfree rfl
  · rw [heq]
    refine (h.wakeFree freed).setFrame (f := .allocSleep c) ?_ ?_ none
    · rw [(wakeFree_request freed p).1, hp]
      rfl
    · rw [(wakeFree_request freed p).2, hp]
      rfl

theorem DiskInv.waitStep (h : DiskInv s) (hp : s.frame p = .wait r) : DiskInv (s.waitStep p r) := by
  have hreq : (s.frame p).request = some r := by rw [hp]; rfl
  unfold DiskSys.waitStep
  split_ifs with hb
  · exact h.setFrame (by rw [hp]; rfl) (by rw [hp]; rfl) none
  · have hchain := (h.chained p r hreq).freeChain (h.nodup p r hreq)
      (show VirtioDisk.desc { s.disk with
        info := upd s.disk.info r.i { s.disk.info r.i with bufId := none } } = _ from rfl)
    dsimp only
    rw [hchain]
    refine h.finish hreq (Bool.eq_false_of_not_eq_true hb) (fun q => ?_) (fun q c hq => ?_) rfl
    · change (upd (s.wakeFree r.ids).frame p .user q).request = _
      split_ifs with hqp
      · rw [hqp, upd_self]
        rfl
      · rw [upd_of_ne hqp]
        exact (wakeFree_request r.ids q).1
    · change (upd (s.wakeFree r.ids).frame p .user q).call = some c at hq
      by_cases hqp : q = p
      · rw [hqp, upd_self] at hq
        cases hq
      · rw [upd_of_ne hqp, (wakeFree_request r.ids q).2] at hq
        exact hq

theorem DiskInv.run (h : DiskInv s) (hs : s.run p = some s') : DiskInv s' := by
  unfold DiskSys.run at hs
  cases hp : s.frame p with
  | user | allocSleep | waitSleep =>
    rw [hp] at hs
    cases hs
  | start c =>
    rw [hp] at hs
    exact h.acquire (f := .alloc c) (by rw [hp]; rfl) (by rw [hp]; rfl) hs
  | alloc c =>
    rw [hp] at hs
    cases hs
    exact h.allocStep hp
  | wait r =>
    rw [hp] at hs
    cases hs
    exact h.waitStep hp
  | waitLock r =>
    rw [hp] at hs
    exact h.acquire (f := .wait r) (by rw [hp]; rfl) (by rw [hp]; rfl) hs

theorem DiskInv.step (h : DiskInv s) {a : DiskAction P} (hs : DiskStep s a s') : DiskInv s' := by
  obtain ⟨hs, hbuf⟩ := hs
  unfold DiskSys.next at hs
  rw [Option.ite_none_left_eq_some] at hs
  replace hs := hs.2
  cases a with
  | rw p c =>
    dsimp only at hs
    split_ifs at hs with hp
    cases hs
    refine h.of_frames rfl (upd_request (by rw [hp]; rfl)) ?_
    have hcall : ∀ {q d}, (upd s.frame p (.start c) q).call = some d →
        q = p ∧ d = c ∨ q ≠ p ∧ (s.frame q).call = some d := by
      intro q d hq
      by_cases hqp : q = p
      · rw [hqp, upd_self] at hq
        exact .inl ⟨hqp, (Option.some.inj hq).symm⟩
      · rw [upd_of_ne hqp] at hq
        exact .inr ⟨hqp, hq⟩
    intro q q' d d' hq hq' heq
    rcases hcall hq with ⟨h1, rfl⟩ | ⟨-, h1⟩ <;> rcases hcall hq' with ⟨h2, rfl⟩ | ⟨-, h2⟩
    · rw [h1, h2]
    · exact absurd heq.symm (hbuf _ _ rfl _ _ h2)
    · exact absurd heq (hbuf _ _ rfl _ _ h1)
    · exact h.buf q q' d d' h1 h2 heq
  | run p => exact h.run hs
  | kill p =>
    cases hs
    refine h.setFrame ?_ ?_ s.owner <;> cases s.frame p <;> rfl
  | interrupt =>
    dsimp only at hs
    split at hs <;> cases hs
    · exact h.of_frames rfl (fun _ => rfl) h.buf
    · exact h.handle
  | fetch => exact h.fetch hs
  | complete n => exact h.complete hs

omit [DecidableEq P] in
theorem DiskInv.new : DiskInv (DiskSys.new : DiskSys P) where
  nodup _ _ h := nomatch h
  taken _ _ h := nomatch h
  disjoint _ _ _ _ _ h := nomatch h
  owner _ h := nomatch h
  clean _ _ := rfl
  chained _ _ h := nomatch h
  buf _ _ _ _ h := nomatch h
  pending _ _ h := nomatch h
  done _ _ h := nomatch h
  origin _ h := by simp [DiskSys.outstanding, DiskSys.new] at h
  heads := by simp [DiskSys.outstanding, DiskSys.new]
  number _ _ h := nomatch h
  numbered _ _ h := by simp [DiskSys.new] at h
  avail := RingOk.new _ _
  used := RingOk.new _ _
  running := rfl

theorem DiskInv.of_reachable (h : Reachable DiskInit DiskStep s) : DiskInv s := by
  refine h.invariant (I := DiskInv) ?_ fun _ _ _ hinv hs => hinv.step hs
  rintro s rfl
  exact DiskInv.new

omit [DecidableEq P] in
theorem DiskInv.card_le (h : DiskInv s) (A : Finset P)
    (hA : ∀ p ∈ A, (s.frame p).request.isSome = true) : A.card ≤ NUM / 3 := by
  classical
  have hids : ∀ p ∈ A, ∃ l r, (s.frame p).request = some r ∧ r.ids = l := by
    intro p hp
    obtain ⟨r, hr⟩ := Option.isSome_iff_exists.1 (hA p hp)
    exact ⟨r.ids, r, hr, rfl⟩
  choose! ids hids using hids
  have hcard : (A.biUnion fun p => (ids p).toFinset).card = ∑ p ∈ A, 3 := by
    rw [Finset.card_biUnion]
    · refine Finset.sum_congr rfl fun p hp => ?_
      obtain ⟨r, hr, hl⟩ := hids p hp
      rw [← hl, List.toFinset_card_of_nodup (h.nodup p r hr)]
      rfl
    · intro p hp q hq hne
      obtain ⟨r, hr, hl⟩ := hids p hp
      obtain ⟨r', hr', hl'⟩ := hids q hq
      rw [Function.onFun, Finset.disjoint_left]
      intro i hi hi'
      rw [List.mem_toFinset] at hi hi'
      exact hne (h.disjoint p q r r' i hr hr' (hl ▸ hi) (hl' ▸ hi'))
  have hle := Finset.card_le_univ (A.biUnion fun p => (ids p).toFinset)
  rw [hcard, Finset.sum_const, smul_eq_mul, Fintype.card_fin] at hle
  exact (Nat.le_div_iff_mul_le (by decide)).2 hle

theorem DiskInv.returns (h : DiskInv s) (hs : DiskStep s (.run p) s') (huser : s'.frame p = .user) :
    ∃ r, (s.frame p).request = some r ∧ s.busy r.call.buf = false := by
  obtain ⟨hs, -⟩ := hs
  unfold DiskSys.next at hs
  rw [Option.ite_none_left_eq_some] at hs
  replace hs := hs.2
  dsimp only at hs
  unfold DiskSys.run at hs
  have hframe : ∀ f : DiskFrame, upd s.frame p f p = .user → f = .user := fun f hf => by
    rwa [upd_self] at hf
  have hacquire : ∀ f : DiskFrame, s.acquire p f = some s' → f = .user := fun f hf => by
    unfold DiskSys.acquire at hf
    split_ifs at hf
    cases hf
    exact hframe f huser
  cases hp : s.frame p with
  | user | allocSleep | waitSleep =>
    rw [hp] at hs
    cases hs
  | start c =>
    rw [hp] at hs
    exact nomatch hacquire _ hs
  | waitLock r =>
    rw [hp] at hs
    exact nomatch hacquire _ hs
  | alloc c =>
    rw [hp] at hs
    cases hs
    unfold DiskSys.allocStep at huser
    rcases alloc3Desc_spec h.clean with ⟨i, j, k, heq, -⟩ | ⟨e, freed, heq⟩
    · rw [heq] at huser
      exact nomatch hframe _ huser
    · rw [heq] at huser
      change upd (s.wakeFree freed).frame p _ p = .user at huser
      rw [upd_self] at huser
      cases huser
  | wait r =>
    rw [hp] at hs
    cases hs
    refine ⟨r, rfl, ?_⟩
    by_contra hb
    rw [DiskSys.waitStep, if_pos (Bool.eq_true_of_not_eq_false hb)] at huser
    exact nomatch hframe _ huser

/-- Every descriptor is free or belongs to one request in flight; a request in flight has three
descriptors, chained from the head that names its buffer; an allocation that fails changes nothing;
at most `NUM / 3` requests are in flight; and `rw` returns only after the device completed the
request that it submitted. -/
theorem disk_requests (h : Reachable DiskInit DiskStep s) :
    (∀ i, s.disk.free i = true ∧ (∀ p r, (s.frame p).request = some r → i ∉ r.ids) ∨
      s.disk.free i = false ∧ ∃! p, ∃ r, (s.frame p).request = some r ∧ i ∈ r.ids) ∧
    (∀ p r, (s.frame p).request = some r → r.ids.Nodup ∧ Chained s.disk r) ∧
    (∀ e freed d, s.disk.alloc3Desc = (.error e, freed, d) → d = s.disk) ∧
    (∀ A : Finset P, (∀ p ∈ A, (s.frame p).request.isSome = true) → A.card ≤ NUM / 3) ∧
    (∀ p s', DiskStep s (.run p) s' → s'.frame p = .user →
      ∃ r, (s.frame p).request = some r ∧ s.submitted[r.number]? = some (r.i, r.number) ∧
        (r.i, r.number) ∈ s.completed) ∧
    s.panicked = false := by
  have hinv := DiskInv.of_reachable h
  refine ⟨fun i => ?_, fun p r hp => ⟨hinv.nodup p r hp, hinv.chained p r hp⟩,
    fun e freed d hd => ?_, hinv.card_le, fun p s' hs huser => ?_, hinv.running⟩
  · cases hfree : s.disk.free i with
    | true =>
      refine .inl ⟨rfl, fun p r hp hi => ?_⟩
      rw [hinv.taken p r hp i hi] at hfree
      cases hfree
    | false =>
      obtain ⟨p, r, hp, hi⟩ := hinv.owner i hfree
      refine .inr ⟨rfl, p, ⟨r, hp, hi⟩, ?_⟩
      rintro q ⟨r', hq, hi'⟩
      exact hinv.disjoint q p r' r i hq hp hi' hi
  · rcases alloc3Desc_spec hinv.clean with ⟨i, j, k, heq, -⟩ | ⟨e', freed', heq⟩
    · rw [heq] at hd
      exact nomatch hd
    · rw [heq, Prod.mk.injEq, Prod.mk.injEq] at hd
      exact hd.2.2.symm
  · obtain ⟨r, hp, hb⟩ := hinv.returns hs huser
    exact ⟨r, hp, hinv.number p r hp, hinv.done p r hp hb⟩

end Steps

/-- Two requests are in flight, the device completes the second one first and its process leaves
`rw`. -/
theorem disk_requests_two : ∃ s : DiskSys Bool,
    ((s.frame true).request.map Request.ids, s.frame false, s.completed) =
      (some [0, 1, 2], .user, [(3, 1)]) ∧
    (∃! p, ∃ r, (s.frame p).request = some r ∧ 1 ∈ r.ids) := by
  have hrun : (execute DiskSys.next (fun s a =>
      match a with
      | .rw _ c => (s.frame true).call.all (·.buf ≠ c.buf) && (s.frame false).call.all (·.buf ≠ c.buf)
      | _ => true) (DiskSys.new : DiskSys Bool)
      [.rw true ⟨⟨4, by decide⟩, 10, false⟩, .run true, .run true, .run true,
        .rw false ⟨⟨5, by decide⟩, 20, true⟩, .run false, .run false, .run false, .fetch, .fetch, .complete 1,
        .interrupt, .interrupt,
        .interrupt, .run false, .run false]).map (fun s =>
        ((s.frame true).request.map Request.ids, s.frame false, s.completed, s.disk.free 1)) =
      some (some [0, 1, 2], .user, [(3, 1)], false) := by
    decide +kernel
  obtain ⟨s, hs, hvals⟩ := Option.map_eq_some_iff.1 hrun
  rw [Prod.mk.injEq, Prod.mk.injEq, Prod.mk.injEq] at hvals
  obtain ⟨hids, huser, hcompleted, hfree⟩ := hvals
  have hreach : Reachable DiskInit DiskStep s := by
    refine .mono (fun t a t' hstep => ⟨hstep.2, ?_⟩)
      (Reachable.execute hs (.init (show DiskInit DiskSys.new from rfl)))
    rintro p c rfl q c' hq
    have hok := hstep.1
    simp only [Bool.and_eq_true, Option.all_eq_true, decide_eq_true_eq] at hok
    cases q with
    | true => exact hok.1 c' hq
    | false => exact hok.2 c' hq
  refine ⟨s, by rw [hids, huser, hcompleted], ?_⟩
  rcases (disk_requests hreach).1 1 with ⟨hf, -⟩ | ⟨-, hone⟩
  · rw [hfree] at hf
    cases hf
  · exact hone

end Octopos
