import Octopos.Buf.Cache
import Octopos.Lib.Count

/-!
# References and contents of buffers

A block has at most one buffer that is in use. The reference count of a buffer is the number of
processes that wait for it, hold it or are about to give it back, plus one if the log pins it
(`RefOk`). A buffer that is not held has the contents that its last holder left, and unless it is
pinned the disk has them too (`DataOk`).
-/

namespace Octopos

/-! ## References -/

/-- The block is pinned if `pins` are the pinned blocks of the device of the log. -/
def Pinned (pins : List ℕ) (k : BlockId) : Prop := k.1 = ROOTDEV ∧ k.2 ∈ pins

instance (pins : List ℕ) (k : BlockId) : Decidable (Pinned pins k) :=
  inferInstanceAs (Decidable (_ ∧ _))

section Refs

variable {P : Type} [Fintype P] {buf : Fin NBUF → Buf} {holder holder' : Fin NBUF → Option P}
  {waits waits' : P → Option (Fin NBUF)} {pins pins' : List ℕ} {i j : Fin NBUF} {p : P} {k : BlockId}

/-- Number of references to buffer `i` of block `k`. -/
def refCount (holder : Fin NBUF → Option P) (waits : P → Option (Fin NBUF)) (pins : List ℕ)
    (i : Fin NBUF) (k : BlockId) : ℕ :=
  uses waits i + (if (holder i).isSome then 1 else 0) + if Pinned pins k then 1 else 0

/-- The buffers and their references; `waits` are the processes that have a reference and not the
lock. -/
structure RefOk (buf : Fin NBUF → Buf) (holder : Fin NBUF → Option P)
    (waits : P → Option (Fin NBUF)) (pins : List ℕ) : Prop where
  head : (buf CacheSys.head).block = (0, 0)
  unique : ∀ i j, (buf i).block = (buf j).block → (buf i).block ≠ (0, 0) → i = j
  spare : ∀ i ≠ CacheSys.head, (buf i).block = (0, 0) → (buf i).ref = 0 ∧ (buf i).valid = false
  refs : ∀ i, (buf i).ref = refCount holder waits pins i (buf i).block
  cached : ∀ b ∈ pins, ∃ i, (buf i).block = (ROOTDEV, b)

section

variable (h : RefOk buf holder waits pins)
include h

theorem RefOk.ne_spare (hi : (buf i).ref ≠ 0) : i = CacheSys.head ∨ (buf i).block ≠ (0, 0) := by
  by_contra hne
  rw [not_or, not_not] at hne
  exact hi (h.spare i hne.1 hne.2).1

theorem RefOk.eq_of_block (hi : i = CacheSys.head ∨ (buf i).block ≠ (0, 0))
    (hj : j = CacheSys.head ∨ (buf j).block ≠ (0, 0)) (hij : (buf i).block = (buf j).block) :
    i = j := by
  rcases hi with rfl | hi
  · rcases hj with rfl | hj
    · rfl
    · rw [← hij, h.head] at hj
      exact absurd rfl hj
  · exact h.unique i j hij hi

theorem RefOk.eq_of_valid (hi : (buf i).valid = true)
    (hj : (buf j).valid = true) (hij : (buf i).block = (buf j).block) : i = j := by
  have hspare {i : Fin NBUF} (hi : (buf i).valid = true) : i = CacheSys.head ∨ (buf i).block ≠ (0, 0) := by
    by_contra hne
    rw [not_or, not_not] at hne
    rw [(h.spare i hne.1 hne.2).2] at hi
    cases hi
  exact h.eq_of_block (hspare hi) (hspare hj) hij

theorem RefOk.holder_none (hi : (buf i).ref = 0) : holder i = none := by
  have hrefs := h.refs i
  rw [hi, refCount] at hrefs
  by_contra hne
  rw [if_pos (Option.isSome_iff_ne_none.2 hne)] at hrefs
  omega

theorem RefOk.not_waits (hi : (buf i).ref = 0) : waits p ≠ some i := by
  intro hp
  have hrefs := h.refs i
  have huses := uses_pos hp
  rw [hi, refCount] at hrefs
  omega

theorem RefOk.not_pinned (hi : (buf i).ref = 0) : ¬Pinned pins (buf i).block := by
  intro hp
  have hrefs := h.refs i
  rw [hi, refCount, if_pos hp] at hrefs
  omega

theorem RefOk.ref_ne_zero_of_holder (hi : holder i = some p) : (buf i).ref ≠ 0 := by
  intro hzero
  rw [h.holder_none hzero] at hi
  cases hi

theorem RefOk.ref_ne_zero_of_waits (hi : waits p = some i) : (buf i).ref ≠ 0 :=
  fun hzero => h.not_waits hzero hi

theorem RefOk.set {x : Buf} (hblock : x.block = (buf i).block)
    (hi : i = CacheSys.head ∨ (buf i).block ≠ (0, 0))
    (href : x.ref = refCount holder' waits' pins' i (buf i).block)
    (hothers : ∀ j ≠ i, refCount holder' waits' pins' j (buf j).block =
        refCount holder waits pins j (buf j).block)
    (hpins : ∀ b ∈ pins', ∃ i, (buf i).block = (ROOTDEV, b)) :
    RefOk (upd buf i x) holder' waits' pins' := by
  have hb (j : Fin NBUF) : (upd buf i x j).block = (buf j).block := by
    by_cases hj : j = i
    · rw [hj, upd_self, hblock]
    · rw [upd_of_ne hj]
  refine ⟨by rw [hb]; exact h.head, fun j j' hjj hz => ?_, fun j hj hz => ?_, fun j => ?_, fun b hb' => ?_⟩
  · rw [hb, hb] at hjj
    rw [hb] at hz
    exact h.unique j j' hjj hz
  · rw [hb] at hz
    have hji : j ≠ i := by
      rintro rfl
      exact hi.elim hj fun hi => hi hz
    rw [upd_of_ne hji]
    exact h.spare j hj hz
  · rw [hb]
    by_cases hji : j = i
    · rw [hji, upd_self, href]
    · rw [upd_of_ne hji, h.refs j, hothers j hji]
  · obtain ⟨j, hj⟩ := hpins b hb'
    exact ⟨j, by rw [hb]; exact hj⟩

theorem RefOk.setBuf {x : Buf} (hi : holder i = some p) (hblock : x.block = (buf i).block)
    (href : x.ref = (buf i).ref) : RefOk (upd buf i x) holder waits pins :=
  h.set hblock (h.ne_spare (h.ref_ne_zero_of_holder hi)) (href.trans (h.refs i)) (fun _ _ => rfl)
    h.cached

end

theorem refCount_congr (hholder : holder' j = holder j) (hwaits : uses waits' j = uses waits j) :
    refCount holder' waits' pins j k = refCount holder waits pins j k := by
  rw [refCount, refCount, hholder, hwaits]

section Moves

variable [DecidableEq P]

section

variable (h : RefOk buf holder waits pins)
include h

theorem RefOk.hit (hi : i = CacheSys.head ∨ (buf i).block ≠ (0, 0)) (hp : waits p = none) :
    RefOk (upd buf i { buf i with ref := (buf i).ref + 1 }) holder (upd waits p (some i)) pins := by
  refine h.set rfl hi ?_ (fun j hj => refCount_congr rfl ?_) h.cached
  · dsimp only
    rw [h.refs i, refCount, refCount, uses_fill hp, if_pos rfl]
    omega
  · rw [uses_fill hp, if_neg hj, add_zero]

theorem RefOk.lock (hp : waits p = some i) (hi : holder i = none) :
    RefOk buf (upd holder i (some p)) (upd waits p none) pins := by
  rw [← upd_eq_self buf i]
  refine h.set rfl (h.ne_spare (h.ref_ne_zero_of_waits hp)) ?_ (fun j hj => refCount_congr (upd_of_ne hj) ?_) h.cached
  · have huses := uses_clear (b := i) hp
    rw [if_pos rfl] at huses
    rw [h.refs i, refCount, refCount, hi, upd_self, huses]
    rfl
  · have huses := uses_clear (b := j) hp
    rw [if_neg hj, add_zero] at huses
    exact huses.symm

theorem RefOk.unlock (hp : waits p = none) (hi : holder i = some p) :
    RefOk buf (upd holder i none) (upd waits p (some i)) pins := by
  rw [← upd_eq_self buf i]
  refine h.set rfl (h.ne_spare (h.ref_ne_zero_of_holder hi)) ?_
    (fun j hj => refCount_congr (upd_of_ne hj) ?_) h.cached
  · rw [h.refs i, refCount, refCount, hi, upd_self, uses_fill hp, if_pos rfl]
    rfl
  · rw [uses_fill hp, if_neg hj, add_zero]

theorem RefOk.unref (hp : waits p = some i) :
    RefOk (upd buf i { buf i with ref := (buf i).ref - 1 }) holder (upd waits p none) pins := by
  refine h.set rfl (h.ne_spare (h.ref_ne_zero_of_waits hp)) ?_ (fun j hj => refCount_congr rfl ?_) h.cached
  · have huses := uses_clear (b := i) hp
    rw [if_pos rfl] at huses
    dsimp only
    rw [h.refs i, refCount, refCount, huses]
    omega
  · have huses := uses_clear (b := j) hp
    rw [if_neg hj, add_zero] at huses
    exact huses.symm

theorem RefOk.miss (hp : waits p = none) (hi : i ≠ CacheSys.head) (hzero : (buf i).ref = 0)
    (hk : ∀ j, (buf j).block ≠ k) :
    RefOk (upd buf i { buf i with block := k, valid := false, ref := (buf i).ref + 1 }) holder
      (upd waits p (some i)) pins := by
  have hk0 : k ≠ (0, 0) := fun hk0 => hk CacheSys.head (h.head.trans hk0.symm)
  have hnotPinned : ¬Pinned pins k := by
    rintro ⟨h1, h2⟩
    obtain ⟨j, hj⟩ := h.cached _ h2
    exact hk j (hj.trans (Prod.ext h1.symm rfl))
  have hself : (upd buf i { buf i with block := k, valid := false, ref := (buf i).ref + 1 }) i =
      { buf i with block := k, valid := false, ref := (buf i).ref + 1 } := upd_self ..
  have hkeep {j : Fin NBUF} (hj : j ≠ i) :
      (upd buf i { buf i with block := k, valid := false, ref := (buf i).ref + 1 }) j = buf j :=
    upd_of_ne hj
  refine ⟨?_, fun j j' hjj hz => ?_, fun j hj hz => ?_, fun j => ?_, fun b hb => ?_⟩
  · rw [hkeep (Ne.symm hi)]
    exact h.head
  · by_cases hji : j = i <;> by_cases hji' : j' = i
    · rw [hji, hji']
    · subst hji
      rw [hself, hkeep hji'] at hjj
      exact absurd hjj.symm (hk j')
    · subst hji'
      rw [hself, hkeep hji] at hjj
      exact absurd hjj (hk j)
    · rw [hkeep hji, hkeep hji'] at hjj
      rw [hkeep hji] at hz
      exact h.unique j j' hjj hz
  · by_cases hji : j = i
    · subst hji
      rw [hself] at hz
      exact absurd hz hk0
    · rw [hkeep hji] at hz ⊢
      exact h.spare j hj hz
  · by_cases hji : j = i
    · subst hji
      rw [hself]
      dsimp only
      have hrefs := h.refs j
      have hcount : uses waits j = 0 := by
        rw [hzero, refCount] at hrefs
        omega
      rw [hzero, refCount, h.holder_none hzero, uses_fill hp, hcount, if_pos rfl, if_neg hnotPinned]
      rfl
    · rw [hkeep hji, h.refs j]
      refine (refCount_congr rfl ?_).symm
      rw [uses_fill hp, if_neg hji, add_zero]
  · obtain ⟨j, hj⟩ := h.cached b hb
    have hji : j ≠ i := by
      rintro rfl
      exact h.not_pinned hzero (by rw [hj]; exact ⟨rfl, hb⟩)
    exact ⟨j, by rw [hkeep hji]; exact hj⟩

end

end Moves

theorem ne_spare_of_dev (hi : (buf i).block.1 = ROOTDEV) :
    i = CacheSys.head ∨ (buf i).block ≠ (0, 0) := by
  refine Or.inr fun hz => ?_
  rw [hz] at hi
  cases hi

theorem refCount_pins (h : RefOk buf holder waits pins) {b : ℕ}
    (hi : (buf i).block = (ROOTDEV, b)) (hpins : ∀ b' ≠ b, b' ∈ pins' ↔ b' ∈ pins) (hj : j ≠ i) :
    refCount holder waits pins' j (buf j).block = refCount holder waits pins j (buf j).block := by
  have hiff : Pinned pins' (buf j).block ↔ Pinned pins (buf j).block := by
    unfold Pinned
    refine and_congr_right fun hdev => hpins _ fun hb => hj ?_
    have hblock : (buf j).block = (buf i).block := by
      rw [hi]
      exact Prod.ext hdev hb
    exact h.eq_of_block (ne_spare_of_dev hdev) (ne_spare_of_dev (by rw [hi])) hblock
  rw [refCount, refCount]
  simp only [hiff]

theorem RefOk.pin (h : RefOk buf holder waits pins) {b : ℕ} (hi : (buf i).block = (ROOTDEV, b))
    (hb : b ∉ pins) :
    RefOk (upd buf i { buf i with ref := (buf i).ref + 1 }) holder waits (pins ++ [b]) := by
  have hold : ¬Pinned pins (ROOTDEV, b) := fun hp => hb hp.2
  have hnew : Pinned (pins ++ [b]) (ROOTDEV, b) := ⟨rfl, by simp⟩
  refine h.set rfl (ne_spare_of_dev (by rw [hi])) ?_ (fun j hj => refCount_pins h hi ?_ hj) ?_
  · dsimp only
    rw [h.refs i, refCount, refCount, hi]
    simp only [if_neg hold, if_pos hnew]
  · intro b' hb'
    simp [hb']
  · intro b' hb'
    rcases List.mem_append.1 hb' with hb' | hb'
    · exact h.cached b' hb'
    · rw [List.mem_singleton.1 hb']
      exact ⟨i, hi⟩

theorem RefOk.unpin {b : ℕ} (h : RefOk buf holder waits (b :: pins))
    (hi : (buf i).block = (ROOTDEV, b)) (hb : b ∉ pins) :
    RefOk (upd buf i { buf i with ref := (buf i).ref - 1 }) holder waits pins := by
  have hold : Pinned (b :: pins) (ROOTDEV, b) := ⟨rfl, by simp⟩
  have hnew : ¬Pinned pins (ROOTDEV, b) := fun hp => hb hp.2
  refine h.set rfl (ne_spare_of_dev (by rw [hi])) ?_ (fun j hj => refCount_pins h hi ?_ hj)
    fun b' hb' => h.cached b' (List.mem_cons_of_mem _ hb')
  · dsimp only
    rw [h.refs i, refCount, refCount, hi]
    simp only [if_pos hold, if_neg hnew]
    omega
  · intro b' hb'
    simp [hb']

end Refs

section Data

variable {P : Type} {buf buf' : Fin NBUF → Buf} {holder holder' : Fin NBUF → Option P}
  {dirty : Fin NBUF → Bool} {disk left : BlockId → Bytes} {pins pins' : List ℕ}
  {i j : Fin NBUF} {p : P} {k : BlockId}

/-- Where the contents of the blocks are. -/
structure DataOk (buf : Fin NBUF → Buf) (holder : Fin NBUF → Option P) (dirty : Fin NBUF → Bool)
    (disk left : BlockId → Bytes) (pins : List ℕ) : Prop where
  idle : ∀ i, holder i = none →
    dirty i = false ∧ ((buf i).valid = true → (buf i).data = left (buf i).block)
  clean : ∀ i, (buf i).valid = true → dirty i = false →
    Pinned pins (buf i).block ∨ disk (buf i).block = (buf i).data
  home : ∀ k, (∀ i, (buf i).block = k → (buf i).valid = false) → disk k = left k

theorem DataOk.congr (h : DataOk buf holder dirty disk left pins)
    (hbuf : ∀ i, (buf' i).block = (buf i).block ∧ (buf' i).valid = (buf i).valid ∧
      (buf' i).data = (buf i).data) : DataOk buf' holder dirty disk left pins := by
  refine ⟨fun i hi => ?_, fun i hv hd => ?_, fun k hk => h.home k fun i hi => ?_⟩
  · rw [(hbuf i).1, (hbuf i).2.1, (hbuf i).2.2]
    exact h.idle i hi
  · rw [(hbuf i).1, (hbuf i).2.2]
    rw [(hbuf i).2.1] at hv
    exact h.clean i hv hd
  · rw [← (hbuf i).2.1]
    exact hk i ((hbuf i).1.trans hi)

theorem sameData_setRef (buf : Fin NBUF → Buf) (i : Fin NBUF) (r : ℕ) (j : Fin NBUF) :
    (upd buf i { buf i with ref := r } j).block = (buf j).block ∧
    (upd buf i { buf i with ref := r } j).valid = (buf j).valid ∧
    (upd buf i { buf i with ref := r } j).data = (buf j).data := by
  by_cases hj : j = i
  · rw [hj, upd_self]
    exact ⟨rfl, rfl, rfl⟩
  · rw [upd_of_ne hj]
    exact ⟨rfl, rfl, rfl⟩

section

variable (h : DataOk buf holder dirty disk left pins)
include h

/-- A buffer that is not pinned and not held is recycled for a block without a buffer. -/
theorem DataOk.miss (hi : holder i = none) (hpin : ¬Pinned pins (buf i).block) (r : ℕ) :
    DataOk (upd buf i { buf i with block := k, valid := false, ref := r }) holder dirty disk left
      pins := by
  have hkeep {j : Fin NBUF} (hj : j ≠ i) :
      upd buf i { buf i with block := k, valid := false, ref := r } j = buf j := upd_of_ne hj
  have hself : upd buf i { buf i with block := k, valid := false, ref := r } i =
      { buf i with block := k, valid := false, ref := r } := upd_self ..
  refine ⟨fun j hj => ?_, fun j hv hd => ?_, fun k' hk' => ?_⟩
  · by_cases hji : j = i
    · subst hji
      rw [hself]
      exact ⟨(h.idle j hj).1, fun hv => by cases hv⟩
    · rw [hkeep hji]
      exact h.idle j hj
  · by_cases hji : j = i
    · subst hji
      rw [hself] at hv
      cases hv
    · rw [hkeep hji] at hv ⊢
      exact h.clean j hv hd
  · by_cases hold : (buf i).block = k' ∧ (buf i).valid = true
    · -- the block that loses its buffer
      obtain ⟨rfl, hv⟩ := hold
      obtain ⟨hd, hleft⟩ := h.idle i hi
      rw [← hleft hv]
      exact (h.clean i hv hd).resolve_left hpin
    · refine h.home k' fun j hj => ?_
      by_cases hji : j = i
      · subst hji
        cases hv : (buf j).valid
        · rfl
        · exact absurd ⟨hj, hv⟩ hold
      · have hkj := hk' j
        rw [hkeep hji] at hkj
        exact hkj hj

theorem DataOk.setData (hi : holder i = some p) (data : Bytes) :
    DataOk (upd buf i { buf i with data := data }) holder (upd dirty i true) disk left pins := by
  have hkeep {j : Fin NBUF} (hj : j ≠ i) : upd buf i { buf i with data := data } j = buf j :=
    upd_of_ne hj
  refine ⟨fun j hj => ?_, fun j hv hd => ?_, fun k hk => h.home k fun j hj => ?_⟩
  · have hji : j ≠ i := by
      rintro rfl
      rw [hi] at hj
      cases hj
    rw [hkeep hji, upd_of_ne hji]
    exact h.idle j hj
  · have hji : j ≠ i := by
      rintro rfl
      rw [upd_self] at hd
      cases hd
    rw [upd_of_ne hji] at hd
    rw [hkeep hji] at hv ⊢
    exact h.clean j hv hd
  · have hkj := hk j
    by_cases hji : j = i
    · subst hji
      rw [upd_self] at hkj
      exact hkj hj
    · rw [hkeep hji] at hkj
      exact hkj hj

theorem DataOk.load (hi : (buf i).valid = false) (data : Bytes) :
    DataOk (upd buf i { buf i with data := data }) holder dirty disk left pins := by
  have hvalid (j : Fin NBUF) : (upd buf i { buf i with data := data } j).block = (buf j).block ∧
      (upd buf i { buf i with data := data } j).valid = (buf j).valid := by
    by_cases hji : j = i
    · rw [hji, upd_self]
      exact ⟨rfl, rfl⟩
    · rw [upd_of_ne hji]
      exact ⟨rfl, rfl⟩
  have hdata {j : Fin NBUF} (hv : (buf j).valid = true) : upd buf i { buf i with data := data } j = buf j := by
    refine upd_of_ne ?_
    rintro rfl
    rw [hi] at hv
    cases hv
  refine ⟨fun j hj => ⟨(h.idle j hj).1, fun hv => ?_⟩, fun j hv hd => ?_, fun k hk => h.home k fun j hj => ?_⟩
  · rw [(hvalid j).2] at hv
    rw [hdata hv]
    exact (h.idle j hj).2 hv
  · rw [(hvalid j).2] at hv
    rw [hdata hv]
    exact h.clean j hv hd
  · rw [← (hvalid j).2]
    exact hk j ((hvalid j).1.trans hj)

theorem DataOk.fill (hi : holder i = some p) (hdata : (buf i).data = disk (buf i).block) :
    DataOk (upd buf i { buf i with valid := true }) holder dirty disk left pins := by
  have hkeep {j : Fin NBUF} (hj : j ≠ i) : upd buf i { buf i with valid := true } j = buf j :=
    upd_of_ne hj
  refine ⟨fun j hj => ?_, fun j hv hd => ?_, fun k hk => h.home k fun j hj => ?_⟩
  · have hji : j ≠ i := by
      rintro rfl
      rw [hi] at hj
      cases hj
    rw [hkeep hji]
    exact h.idle j hj
  · by_cases hji : j = i
    · rw [hji, upd_self]
      exact Or.inr hdata.symm
    · rw [hkeep hji] at hv ⊢
      exact h.clean j hv hd
  · have hkj := hk j
    by_cases hji : j = i
    · subst hji
      rw [upd_self] at hkj
      cases hkj hj
    · rw [hkeep hji] at hkj
      exact hkj hj

theorem DataOk.lock : DataOk buf (upd holder i (some p)) dirty disk left pins := by
  refine ⟨fun j hj => h.idle j ?_, h.clean, h.home⟩
  by_cases hji : j = i
  · rw [hji, upd_self] at hj
    cases hj
  · rwa [upd_of_ne hji] at hj

theorem DataOk.unlock (hv : (buf i).valid = true) (hd : dirty i = false)
    (hunique : ∀ j, (buf j).valid = true → (buf j).block = (buf i).block → j = i) :
    DataOk buf (upd holder i none) dirty disk (upd left (buf i).block (buf i).data) pins := by
  refine ⟨fun j hj => ?_, h.clean, fun k hk => ?_⟩
  · by_cases hji : j = i
    · subst hji
      exact ⟨hd, fun _ => (upd_self ..).symm⟩
    · rw [upd_of_ne hji] at hj
      refine ⟨(h.idle j hj).1, fun hvj => ?_⟩
      rw [upd_of_ne fun hb => hji (hunique j hvj hb)]
      exact (h.idle j hj).2 hvj
  · have hne : k ≠ (buf i).block := by
      rintro rfl
      rw [hk i rfl] at hv
      cases hv
    rw [upd_of_ne hne]
    exact h.home k hk

theorem DataOk.flush (hv : (buf i).valid = true)
    (hunique : ∀ j, (buf j).valid = true → (buf j).block = (buf i).block → j = i) :
    DataOk buf holder (upd dirty i false) (upd disk (buf i).block (buf i).data) left pins := by
  refine ⟨fun j hj => ?_, fun j hvj hd => ?_, fun k hk => ?_⟩
  · refine ⟨?_, (h.idle j hj).2⟩
    by_cases hji : j = i
    · rw [hji, upd_self]
    · rw [upd_of_ne hji]
      exact (h.idle j hj).1
  · by_cases hji : j = i
    · rw [hji, upd_self]
      exact Or.inr rfl
    · rw [upd_of_ne hji] at hd
      rw [upd_of_ne fun hb => hji (hunique j hvj hb)]
      exact h.clean j hvj hd
  · have hne : k ≠ (buf i).block := by
      rintro rfl
      rw [hk i rfl] at hv
      cases hv
    rw [upd_of_ne hne]
    exact h.home k hk

theorem DataOk.pin (hpins : pins ⊆ pins') (hi : Pinned pins' (buf i).block) :
    DataOk buf holder (upd dirty i false) disk left pins' := by
  refine ⟨fun j hj => ⟨?_, (h.idle j hj).2⟩, fun j hv hd => ?_, h.home⟩
  · by_cases hji : j = i
    · rw [hji, upd_self]
    · rw [upd_of_ne hji]
      exact (h.idle j hj).1
  · by_cases hji : j = i
    · rw [hji]
      exact Or.inl hi
    · rw [upd_of_ne hji] at hd
      exact (h.clean j hv hd).imp_left fun hp => ⟨hp.1, hpins hp.2⟩

end

theorem DataOk.unpin {b : ℕ} (h : DataOk buf holder dirty disk left (b :: pins))
    (hi : ∀ j, (buf j).valid = true → (buf j).block = (ROOTDEV, b) →
      disk (buf j).block = (buf j).data) : DataOk buf holder dirty disk left pins := by
  refine ⟨h.idle, fun j hv hd => ?_, h.home⟩
  by_cases hb : (buf j).block = (ROOTDEV, b)
  · exact Or.inr (hi j hv hb)
  · refine (h.clean j hv hd).imp_left fun hp => ⟨hp.1, ?_⟩
    refine (List.mem_cons.1 hp.2).resolve_left fun he => hb (Prod.ext hp.1 he)

end Data

end Octopos
