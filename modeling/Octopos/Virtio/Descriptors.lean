import Octopos.Virtio.Disk

/-!
# Rings and descriptors of the disk

Facts about the data that the driver shares with the device: a ring holds what the other side has
not seen (`RingOk`), `alloc3_desc` takes three free descriptors or leaves the table as it is
(`alloc3Desc_spec`), and `free_chain` frees the three descriptors of a request
(`Chained.freeChain`).
-/

namespace Octopos

/-! ## The rings -/

/-- A ring holds the part of `log` that the other side has not seen, from `done` on. -/
structure RingOk {α : Type} (f : DescId × ℕ → α) (ring : Fin NUM → α) (idx seen : UInt16)
    (log : List (DescId × ℕ)) (done : ℕ) : Prop where
  idx : idx = UInt16.ofNat log.length
  seen : seen = UInt16.ofNat done
  le : done ≤ log.length
  size : log.length ≤ done + NUM
  keeps : Keeps NUM ring done (log.map f)

section Ring

variable {α : Type} {f : DescId × ℕ → α} {ring : Fin NUM → α} {idx seen : UInt16}
  {log : List (DescId × ℕ)} {done : ℕ}

theorem ringSlot_ofNat (n : ℕ) : ringSlot (UInt16.ofNat n) = Fin.ofNat NUM n := by
  have h8 : NUM = 8 := rfl
  refine Fin.ext ?_
  change n % 2 ^ 16 % NUM = n % NUM
  rw [h8]
  omega

theorem RingOk.new (f : DescId × ℕ → α) (ring : Fin NUM → α) : RingOk f ring 0 0 [] 0 :=
  ⟨rfl, rfl, le_rfl, by simp, Keeps.nil⟩

section

variable (h : RingOk f ring idx seen log done)
include h

theorem RingOk.push (hroom : log.length < done + NUM) (e : DescId × ℕ) :
    RingOk f (upd ring (ringSlot idx) (f e)) (idx + 1) seen (log ++ [e]) done := by
  have hlen : (log.map f).length = log.length := List.length_map f
  refine ⟨?_, h.seen, ?_, ?_, ?_⟩
  · rw [h.idx, List.length_append, List.length_singleton, UInt16.ofNat_add]
    rfl
  · rw [List.length_append]
    exact h.le.trans (Nat.le_add_right _ _)
  · rw [List.length_append, List.length_singleton]
    exact hroom
  · rw [h.idx, ringSlot_ofNat, List.map_append, List.map_singleton, ← hlen]
    exact h.keeps.push (hlen ▸ hroom) (f e)

theorem RingOk.seen_ne_iff : seen ≠ idx ↔ done < log.length := by
  have h8 : NUM = 8 := rfl
  have hle := h.le
  have hsize := h.size
  rw [Ne, h.seen, h.idx, ← UInt16.toNat_inj, UInt16.toNat_ofNat', UInt16.toNat_ofNat']
  omega

theorem RingOk.front (hlt : done < log.length) :
    ring (ringSlot seen) = f (log.get ⟨done, hlt⟩) := by
  rw [h.seen, ringSlot_ofNat, h.keeps done le_rfl (by rwa [List.length_map])]
  simp

theorem RingOk.pop (hlt : done < log.length) : RingOk f ring idx (seen + 1) log (done + 1) := by
  refine ⟨h.idx, ?_, hlt, ?_, h.keeps.drop (Nat.le_succ done)⟩
  · rw [h.seen, UInt16.ofNat_add]
    rfl
  · have := h.size
    omega

end

end Ring

section Descriptors

variable {d d' : VirtioDisk} {i : DescId} {got l : List DescId}

theorem descId_val (i : DescId) : descId i.val = some i := dif_pos i.isLt

/-- The descriptors of `l` are taken. -/
def VirtioDisk.take (d : VirtioDisk) (l : List DescId) : VirtioDisk :=
  { d with free := fun i => d.free i && !l.contains i }

theorem VirtioDisk.take_nil : d.take [] = d := by simp [VirtioDisk.take]

theorem foldl_freeDesc (d : VirtioDisk) (l : List DescId) :
    l.foldl VirtioDisk.freeDesc d =
      { d with
        desc := fun i => if i ∈ l then {} else d.desc i
        free := fun i => if i ∈ l then true else d.free i } := by
  induction l generalizing d with
  | nil => simp
  | cons a l ih =>
    rw [List.foldl_cons, ih]
    simp only [VirtioDisk.freeDesc, VirtioDisk.mk.injEq, List.mem_cons, true_and, and_true]
    refine ⟨funext fun i => ?_, funext fun i => ?_⟩ <;>
    · by_cases hi : i = a
      · subst hi
        simp
      · simp [hi, upd_of_ne hi]

section

variable (hclean : ∀ i, d.free i = true → d.desc i = {})
include hclean

/-- Freeing what was taken gives the table as it was, if free descriptors are blank. -/
theorem foldl_freeDesc_take (hl : ∀ i ∈ l, d.free i = true) :
    l.foldl VirtioDisk.freeDesc (d.take l) = d := by
  rw [foldl_freeDesc]
  obtain ⟨desc, avail, used, free, usedIdx, info, ops⟩ := d
  simp only [VirtioDisk.take, VirtioDisk.mk.injEq, true_and, and_true]
  refine ⟨funext fun i => ?_, funext fun i => ?_⟩
  · split_ifs with hi
    · exact (hclean i (hl i hi)).symm
    · rfl
  · split_ifs with hi
    · exact (hl i hi).symm
    · simp [hi]

theorem alloc3Loop_spec (hnodup : got.Nodup) (hgot : ∀ i ∈ got, d.free i = true) (n : ℕ) :
    (∃ l, (d.take got).alloc3Loop got n = (.ok l, [], d.take l) ∧ l.length = got.length + n ∧
      l.Nodup ∧ ∀ i ∈ l, d.free i = true) ∨ ∃ e freed, (d.take got).alloc3Loop got n =
      (.error e, freed, d) := by
  induction n generalizing got with
  | zero => exact .inl ⟨got, rfl, rfl, hnodup, hgot⟩
  | succ n ih =>
    rw [VirtioDisk.alloc3Loop, VirtioDisk.allocDesc]
    cases hfind : (List.finRange NUM).find? ((d.take got).free ·) with
    | none => exact .inr ⟨.alloc, got, by simp only [foldl_freeDesc_take hclean hgot]⟩
    | some i =>
      have hi : d.free i = true ∧ i ∉ got := by
        simpa [VirtioDisk.take] using List.find?_some hfind
      have htake : { d.take got with free := upd (d.take got).free i false } = d.take (got ++ [i]) := by
        simp only [VirtioDisk.take, VirtioDisk.mk.injEq, true_and, and_true]
        funext j
        by_cases hj : j = i
        · subst hj
          simp
        · simp [upd_of_ne hj, hj]
      have hmem : ∀ j ∈ got ++ [i], d.free j = true := by
        intro j hj
        rcases List.mem_append.1 hj with hj | hj
        · exact hgot j hj
        · rw [List.mem_singleton.1 hj]
          exact hi.1
      have hnodup' : (got ++ [i]).Nodup := by
        rw [List.nodup_append]
        exact ⟨hnodup, by simp, fun a ha b hb => by
          rw [List.mem_singleton.1 hb]
          rintro rfl
          exact hi.2 ha⟩
      dsimp only
      rw [htake]
      rcases ih hnodup' hmem with ⟨l, hl, hlen, hrest⟩ | herr
      · refine .inl ⟨l, hl, ?_, hrest⟩
        rw [hlen, List.length_append, List.length_singleton]
        omega
      · exact .inr herr

theorem alloc3Desc_spec :
    (∃ i j k, d.alloc3Desc = (.ok [i, j, k], [], d.take [i, j, k]) ∧ [i, j, k].Nodup ∧
      ∀ x ∈ [i, j, k], d.free x = true) ∨ ∃ e freed, d.alloc3Desc = (.error e, freed, d) := by
  have hspec := alloc3Loop_spec hclean List.nodup_nil (by simp) 3
  rw [VirtioDisk.take_nil] at hspec
  rcases hspec with ⟨l, hl, hlen, hrest⟩ | herr
  · obtain ⟨i, j, k, rfl⟩ := List.length_eq_three.1 hlen
    exact .inl ⟨i, j, k, hl, hrest⟩
  · exact .inr herr

end

/-- The table holds the chain of the request, and its head names the buffer. -/
structure Chained (d : VirtioDisk) (r : Request) : Prop where
  first : d.desc r.i =
    { addr := .op r.i, len := 16, flags := VRING_DESC_F_NEXT, next := UInt16.ofNat r.j.val }
  second : d.desc r.j =
    { addr := .data r.call.buf, len := BSIZE,
      flags := (if r.call.write then 0 else VRING_DESC_F_WRITE) ||| VRING_DESC_F_NEXT
      next := UInt16.ofNat r.k.val }
  third : d.desc r.k =
    { addr := .status r.i, len := 1, flags := VRING_DESC_F_WRITE, next := 0 }
  buf : (d.info r.i).bufId = some r.call.buf
  op : d.ops r.i =
    { type := if r.call.write then VIRTIO_BLK_T_OUT else VIRTIO_BLK_T_IN, reserved := 0,
      sector := r.call.sector }

theorem Chained.congr {r : Request} (h : Chained d r) (hdesc : ∀ x ∈ r.ids, d'.desc x = d.desc x)
    (hinfo : d'.info r.i = d.info r.i) (hops : d'.ops r.i = d.ops r.i) : Chained d' r := by
  refine ⟨?_, ?_, ?_, ?_, ?_⟩
  · rw [hdesc r.i (by simp [Request.ids])]
    exact h.first
  · rw [hdesc r.j (by simp [Request.ids])]
    exact h.second
  · rw [hdesc r.k (by simp [Request.ids])]
    exact h.third
  · rw [hinfo]
    exact h.buf
  · rw [hops]
    exact h.op

theorem chained_format {r : Request} (hnodup : r.ids.Nodup) :
    Chained ((d.format r.i r.j r.k r.call.buf r.call.sector r.call.write).publish r.i) r := by
  simp only [Request.ids, List.nodup_cons, List.mem_cons, List.not_mem_nil, or_false, not_or,
    not_false_eq_true, List.nodup_nil, and_true] at hnodup
  obtain ⟨⟨hij, hik⟩, hjk⟩ := hnodup
  refine ⟨?_, ?_, ?_, ?_, ?_⟩
  · exact (upd_of_ne hik).trans ((upd_of_ne hij).trans (upd_self ..))
  · exact (upd_of_ne hjk).trans (upd_self ..)
  · exact upd_self ..
  · change (upd d.info r.i _ r.i).bufId = _
    rw [upd_self]
  · exact upd_self ..

theorem toNat_ofNat_descId (i : DescId) : (UInt16.ofNat i.val).toNat = i.val := by
  have h8 : NUM = 8 := rfl
  have := i.isLt
  rw [UInt16.toNat_ofNat']
  omega

theorem freeChain_spec {r : Request} (hnodup : r.ids.Nodup)
    (hfirst : (d.desc r.i).flags &&& VRING_DESC_F_NEXT ≠ 0 ∧ (d.desc r.i).next.toNat = r.j.val)
    (hsecond : (d.desc r.j).flags &&& VRING_DESC_F_NEXT ≠ 0 ∧ (d.desc r.j).next.toNat = r.k.val)
    (hthird : (d.desc r.k).flags &&& VRING_DESC_F_NEXT = 0) :
    d.freeChain r.i (NUM + 1) = some (r.ids, r.ids.foldl VirtioDisk.freeDesc d) := by
  simp only [Request.ids, List.nodup_cons, List.mem_cons, List.not_mem_nil, or_false, not_or,
    not_false_eq_true, List.nodup_nil, and_true] at hnodup
  obtain ⟨⟨hij, hik⟩, hjk⟩ := hnodup
  have hj : (d.freeDesc r.i).desc r.j = d.desc r.j := upd_of_ne (Ne.symm hij)
  have hk : ((d.freeDesc r.i).freeDesc r.j).desc r.k = d.desc r.k :=
    (upd_of_ne (Ne.symm hjk)).trans (upd_of_ne (Ne.symm hik))
  have hlast : ((d.freeDesc r.i).freeDesc r.j).freeChain r.k 7 =
      some ([r.k], ((d.freeDesc r.i).freeDesc r.j).freeDesc r.k) := by
    rw [VirtioDisk.freeChain]
    dsimp only
    rw [hk, if_neg (by simpa using hthird)]
  have hmiddle : (d.freeDesc r.i).freeChain r.j 8 =
      some ([r.j, r.k], ((d.freeDesc r.i).freeDesc r.j).freeDesc r.k) := by
    rw [VirtioDisk.freeChain]
    dsimp only
    rw [hj, if_pos hsecond.1, hsecond.2, descId_val]
    simp only [Option.bind_eq_bind, Option.bind_some, hlast, Option.pure_def]
  change d.freeChain r.i 9 = _
  rw [VirtioDisk.freeChain]
  dsimp only
  rw [if_pos hfirst.1, hfirst.2, descId_val]
  simp only [Option.bind_eq_bind, Option.bind_some, hmiddle, Option.pure_def]
  rfl

theorem Chained.freeChain {r : Request} (h : Chained d r) (hnodup : r.ids.Nodup)
    (hdesc : d'.desc = d.desc) :
    d'.freeChain r.i (NUM + 1) = some (r.ids, r.ids.foldl VirtioDisk.freeDesc d') := by
  refine freeChain_spec hnodup ?_ ?_ ?_
  · rw [hdesc, h.first]
    exact ⟨show VRING_DESC_F_NEXT &&& VRING_DESC_F_NEXT ≠ 0 by decide, toNat_ofNat_descId r.j⟩
  · rw [hdesc, h.second]
    refine ⟨?_, toNat_ofNat_descId r.k⟩
    dsimp only
    cases r.call.write <;> decide
  · rw [hdesc, h.third]
    exact show VRING_DESC_F_WRITE &&& VRING_DESC_F_NEXT = 0 by decide

end Descriptors

end Octopos
