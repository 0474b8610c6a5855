import Octopos.Vm.ImageRules

/-!
# Rules for `exec`

`exec` builds a new address space beside that of the process. The bytes that it leaves there are a
function of the executable and the arguments (`Exec.imageBytes`). On an error the new address space
is dropped, except when a program header cannot be read: then its pages are lost (`MemOk.forget`).
-/

namespace Octopos

/-- Files have at most `MAXFILE` blocks. -/
def ExecFile.Bounded (file : ExecFile) : Prop :=
  ∀ o n b, 0 < n → file o n = some b → o + n ≤ MAXFILE * BSIZE

/-! ## The bytes of an image -/

namespace Exec

/-- The bytes after the pages `ks` of a segment are read. -/
def segmentBytes (file : ExecFile) (va offset size : ℕ) : List ℕ → Bytes → Bytes
  | [], b => b
  | k :: ks, b =>
    let n := min PGSIZE (size - k * PGSIZE)
    let buf := (file (offset + k * PGSIZE % 2 ^ 32) n).getD fun _ => 0
    segmentBytes file va offset size ks (blit b (va + k * PGSIZE) n buf)

/-- The size and the bytes of the program after `n` more headers. -/
def programBytes (file : ExecFile) : ℕ → ℕ → ℕ × Bytes → ℕ × Bytes
  | 0, _, p => p
  | n + 1, offset, (size, b) =>
    let ph := ProgramHeader.fromBytes ((file (offset % 2 ^ 32) ProgramHeader.SIZE).getD fun _ => 0)
    if ph.type ≠ ProgramHeader.LOAD then programBytes file n (offset + ProgramHeader.SIZE) (size, b)
    else
      programBytes file n (offset + ProgramHeader.SIZE) (max size (ph.vaddr + ph.memsz),
        segmentBytes file ph.vaddr (ph.offset % 2 ^ 32) ph.filesz (List.range (stepCount 0 ph.filesz)) b)

/-- The stack pointer, the addresses of the arguments and the bytes after the arguments are
pushed. -/
def argBytes : List (List UInt8) → ℕ × List ℕ × Bytes → ℕ × List ℕ × Bytes
  | [], x => x
  | arg :: argv, (sp, ustack, b) =>
    let sp := sp - (arg.length + 1)
    let sp := sp - sp % 16
    let b := blit b sp arg.length fun x => arg.getD x 0
    argBytes argv (sp, ustack ++ [sp], blit b (sp + arg.length) 1 fun _ => 0)

def imageBytes (file : ExecFile) (argv : List (List UInt8)) : Bytes :=
  let elf := ElfHeader.fromBytes ((file 0 ElfHeader.SIZE).getD fun _ => 0)
  let (size, b) := programBytes file elf.phnum elf.phoff (0, fun _ => 0)
  let top := roundUp size + (USERSTACK + 1) * PGSIZE
  let (sp, ustack, b) := argBytes argv (top, [], b)
  let sp := sp - (ustack.length + 1) * 8
  let sp := sp - sp % 16
  blit b sp (ustackBytes ustack).length fun x => (ustackBytes ustack).getD x 0

/-- The pages of a program that can be written, after `n` more headers. -/
def programWritable (file : ExecFile) : ℕ → ℕ → ℕ → (ℕ → Bool) → ℕ → Bool
  | 0, _, _, w => w
  | n + 1, offset, size, w =>
    let ph := ProgramHeader.fromBytes ((file (offset % 2 ^ 32) ProgramHeader.SIZE).getD fun _ => 0)
    if ph.type ≠ ProgramHeader.LOAD then programWritable file n (offset + ProgramHeader.SIZE) size w
    else
      programWritable file n (offset + ProgramHeader.SIZE) (max size (ph.vaddr + ph.memsz))
        fun va => if roundUp size ≤ va then ph.getPerms.isW else w va

/-- A program header and its segment can be read. -/
def HeaderOk (file : ExecFile) (offset : ℕ) : Prop :=
  ∃ buf, file (offset % 2 ^ 32) ProgramHeader.SIZE = some buf ∧
    ((ProgramHeader.fromBytes buf).type = ProgramHeader.LOAD → (ProgramHeader.fromBytes buf).ok = true ∧
      ∀ k < stepCount 0 (ProgramHeader.fromBytes buf).filesz,
        file ((ProgramHeader.fromBytes buf).offset % 2 ^ 32 + k * PGSIZE % 2 ^ 32)
          (min PGSIZE ((ProgramHeader.fromBytes buf).filesz - k * PGSIZE)) ≠ none)

/-- Where `n` bytes are pushed. -/
def place (sp n : ℕ) : ℕ := sp - n - (sp - n) % 16

/-- What becomes of the arguments. -/
inductive ArgFit
  | panics
  | fails
  | fits
  deriving DecidableEq, Repr

/-- What becomes of the arguments on a stack with the lowest address `base`, when `argc` arguments
are there and `sp` is the stack pointer. -/
def argFit (base : ℕ) : List (List UInt8) → ℕ → ℕ → ArgFit
  | [], sp, argc =>
    -- `ustack[argc] = 0`
    if MAXARG ≤ argc then .panics
    else if sp < (argc + 1) * 8 then .panics
    else if place sp ((argc + 1) * 8) < base then .fails
    else .fits
  | arg :: argv, sp, argc =>
    if MAXARG ≤ argc then .fails
    else if sp < arg.length + 1 then .panics
    else if place sp (arg.length + 1) < base then .fails
    else argFit base argv (place sp (arg.length + 1)) (argc + 1)

/-- All program headers of an executable can be read. -/
def HeadersReadable (file : ExecFile) : Prop :=
  ∀ buf, file 0 ElfHeader.SIZE = some buf → ∀ k < (ElfHeader.fromBytes buf).phnum,
    file (((ElfHeader.fromBytes buf).phoff + k * ProgramHeader.SIZE) % 2 ^ 32) ProgramHeader.SIZE ≠ none

end Exec

variable {ι : Type} [DecidableEq ι] [Fintype ι] {A : Allocator} {vm : Vm} {roots : ι → Option ℕ}
  {own : ℕ → Option (Owner ι)} {pte : ι → ℕ → Pte} {mem : ι → Bytes} {i j : ι} {r va : ℕ}
variable {cur : ℕ} {argv : List (List UInt8)}

omit [Fintype ι] in
theorem setBytes_upd (mem : ι → Bytes) (i : ι) (b : Bytes) (va n : ℕ) (src : Bytes) :
    setBytes (upd mem i b) i va n src = upd mem i (blit b va n src) := by
  unfold setBytes
  rw [upd_self, upd_idem]

/-! ## Loading -/

theorem MemOk.loadElfSegment_wp {file : ExecFile} {tr tf sz offset size l m : ℕ} {b : Bytes}
    {Q : Except VmError PUnit → Vm → Prop} {E : VmPanic → Prop} (hr : roots i = some r)
    (him : NewImageOk pte i tr tf sz) (ha : va % PGSIZE = 0)
    (h : MemOk vm roots own pte (upd mem i b)) (hE : ¬file.Bounded → ∀ e, E e)
    (hpages : ∀ k < l + m, k * PGSIZE < size)
    (hplace : file.Bounded → 0 < m → offset + l * PGSIZE % 2 ^ 32 < 2 ^ 32)
    (herr : ∀ e vm' b', MemOk vm' roots own pte (upd mem i b') → Q (.error e) vm')
    (hok : ∀ vm',
      (∀ k, l ≤ k → k < l + m →
        file (offset + k * PGSIZE % 2 ^ 32) (min PGSIZE (size - k * PGSIZE)) ≠ none) →
      MemOk vm' roots own pte
        (upd mem i (Exec.segmentBytes file va offset size (List.range' l m) b)) → Q (.ok ⟨⟩) vm') :
    wp (Exec.loadElfSegment A file r va offset size (List.range' l m)) Q E vm := by
  induction m generalizing l vm b with
  | zero => exact wp_pure.2 (hok vm (fun k hk hlt => absurd hk (not_le.2 hlt)) h)
  | succ m ih =>
    rw [List.range'_succ] at hok ⊢
    rw [Exec.loadElfSegment]
    refine wp_bind.2 (h.walkAddr_wp hr (by rw [Nat.add_mul_mod_self_right, ha])
      (fun e _ => wp_pure.2 (herr e vm b h)) fun hlt hv hu => ?_)
    have hlow : va + l * PGSIZE < TRAPFRAME := by
      by_contra hge
      rw [him.space.highOk _ (by rw [Nat.add_mul_mod_self_right, ha]) (not_lt.1 hge) hlt] at hu
      cases hu
    obtain ⟨k, hk⟩ := (UserVa.mk (by rw [Nat.add_mul_mod_self_right, ha]) hlow).exists_uva
    refine wp_ite (fun hbig => ?_) fun _ => ?_
    · refine hE (fun hb => ?_) _
      exact absurd (hplace hb (Nat.succ_pos m)) (not_lt.2 hbig)
    cases hread : file (offset + l * PGSIZE % 2 ^ 32) (min PGSIZE (size - l * PGSIZE)) with
    | none => exact wp_pure.2 (herr _ vm b h)
    | some buf =>
      rw [← hk] at hv ⊢
      have hpoke : MemOk (vm.poke (pte i (uva k)).asPa 0 (min PGSIZE (size - l * PGSIZE)) buf) roots own pte _ :=
        h.poke (Pte.target_eq_some.2 ⟨hv, rfl⟩) (him.alone k hv) (by rw [zero_add]; exact min_le_left _ _)
      rw [setBytes_upd, add_zero] at hpoke
      refine wp_bind.2 (wp_modify.2 (ih hpoke (fun k hlt => hpages k (by omega)) (fun hb hm => ?_)
        fun vm' hreads h' => hok vm' (fun k hle hlt => ?_) ?_))
      · -- the page before is full, so the next one begins inside of the file
        have hfull := hpages (l + 1) (by omega)
        have hpg : PGSIZE = 4096 := rfl
        have hmax : MAXFILE * BSIZE = 274432 := rfl
        rw [hpg] at hfull hread
        have hn : min 4096 (size - l * 4096) = 4096 := by omega
        rw [hn] at hread
        have hlim := hb _ _ _ (by decide) hread
        rw [hmax] at hlim
        rw [hpg]
        omega
      · rcases hle.eq_or_lt with rfl | hlt'
        · rw [hread]
          exact Option.some_ne_none buf
        · exact hreads k hlt' (by omega)
      · rw [Exec.segmentBytes, hread, ← hk]
        exact h'

theorem usizeAdd_cases {x y : ℕ} {Q : ℕ → Vm → Prop} {E : VmPanic → Prop}
    (hE : USIZE ≤ x + y → E .overflow) (hQ : x + y < USIZE → Q (x + y) vm) :
    wp (usizeAdd x y) Q E vm := by
  unfold usizeAdd
  exact wp_ite (fun h => wp_throw.2 (hE h)) fun h => hQ (not_le.1 h)

theorem usizeSub_cases {x y : ℕ} {Q : ℕ → Vm → Prop} {E : VmPanic → Prop} (hE : x < y → E .overflow)
    (hQ : y ≤ x → Q (x - y) vm) : wp (usizeSub x y) Q E vm := by
  unfold usizeSub
  exact wp_ite (fun h => wp_throw.2 (hE h)) fun h => hQ (not_lt.1 h)

theorem getPerms_lt (ph : ProgramHeader) : ph.getPerms.toNat < 2 ^ 10 := by
  unfold ProgramHeader.getPerms
  split_ifs <;> decide

section Building

variable (roots own pte mem i)
variable {perm : Pte} {Q : Except ExecError ℕ → Vm → Prop} {ustack : List ℕ}

/-- The address spaces are as they were. -/
def Kept (vm' : Vm) : Prop := ∃ own', MemOk vm' roots own' pte mem ∧ SameOutside i own own'

omit [DecidableEq ι] [Fintype ι] in
/-- The user can read the pages of the program, and write those of `w`. -/
def ProgramPages (top : ℕ) (w : ℕ → Bool) : Prop :=
  ∀ k, uva k < top → (pte i (uva k)).isV = true ∧ (pte i (uva k)).isU = true ∧ (pte i (uva k)).isR = true ∧
    (pte i (uva k)).isW = w (uva k)

/-- A new address space `i` of size `sz` with the bytes `b` and the writable pages `w` is being
built. -/
def Building (r tr tf : ℕ) (vm' : Vm) (sz : ℕ) (b : Bytes) (w : ℕ → Bool) : Prop :=
  ∃ own' pte', MemOk vm' (upd roots i (some r)) own' pte' (upd mem i b) ∧ SameOutside i own own' ∧
    Others i pte pte' ∧ NewImageOk pte' i tr tf sz ∧ ProgramPages pte' i sz w

variable {roots own pte mem i} {vm' : Vm} {own' : ℕ → Option (Owner ι)} {pte' : ι → ℕ → Pte} {b : Bytes}
  {tr tf sz : ℕ} {file : ExecFile} {w : ℕ → Bool} {E : VmPanic → Prop}

omit [DecidableEq ι] [Fintype ι] in
theorem Alloced.page {k : Fin USERPAGES} {lo hi : ℕ} (h : Alloced i lo hi perm pte pte')
    (hlo : lo ≤ uva k) (hhi : uva k < hi) :
    (pte' i (uva k)).isV = true ∧ (pte' i (uva k)).isU = true ∧ (pte' i (uva k)).isR = true ∧
    (pte' i (uva k)).isW = perm.isW := by
  obtain ⟨a, _, heq⟩ := h.fresh k hlo hhi
  rw [heq, isV_install, isU_install, isR_install, isW_install]
  simp only [Pte.isV_eq, Pte.isU_eq, Pte.isR_eq, Pte.isW_eq, BitVec.getLsbD_or]
  refine ⟨by simp [PTE_V], by simp [PTE_U], by simp [PTE_R], by simp [PTE_R, PTE_U, PTE_V]⟩

omit [DecidableEq ι] [Fintype ι] in
theorem Alloced.programPages {old new : ℕ} (h : Alloced i (roundUp old) (roundUp new) perm pte pte')
    (hw : ProgramPages pte i old w) :
    ProgramPages pte' i new fun va => if roundUp old ≤ va then perm.isW else w va := by
  intro k hlt
  dsimp only
  split_ifs with hold
  · exact h.page hold (hlt.trans_le (le_roundUp new))
  · rw [not_le] at hold
    rw [h.kept i _ (.inr (.inl hold))]
    exact hw k ((lt_roundUp (uva_userVa k).aligned).1 hold)

theorem MemOk.abandon_wp {Q : PUnit → Vm → Prop} (h : MemOk vm roots own pte mem)
    (hi : roots i = none) (h' : MemOk vm' (upd roots i (some r)) own' pte' (upd mem i b))
    (hk : SameOutside i own own') (ho : Others i pte pte') (hs : SpaceOk pte' i tr tf sz)
    (hQ : ∀ vm'', Kept roots own pte mem i vm'' → Q ⟨⟩ vm'') :
    wp (Uvm.procFree A r sz) Q E vm' := by
  refine h'.procFree_wp (upd_self _ _ _) hs (le_TRAPFRAME_fits hs.size) hs.below
    fun vm'' own'' mem'' h'' hd => hQ vm'' ⟨own'', ?_, hk.trans hd.kernel⟩
  refine h.abandoned hi h'' ho fun j hj => ?_
  rw [hd.others j hj, upd_of_ne hj]

theorem Exec.next_header (offset k : ℕ) :
    offset + ProgramHeader.SIZE + k * ProgramHeader.SIZE = offset +
      (k + 1) * ProgramHeader.SIZE := by
  rw [Nat.succ_mul]
  omega

theorem Exec.headerOk_succ {n offset : ℕ} (hfirst : Exec.HeaderOk file offset)
    (hrest : ∀ k < n, Exec.HeaderOk file (offset + ProgramHeader.SIZE + k * ProgramHeader.SIZE)) :
    ∀ k < n + 1, Exec.HeaderOk file (offset + k * ProgramHeader.SIZE) := by
  intro k hk
  cases k with
  | zero =>
    rw [Nat.zero_mul, add_zero]
    exact hfirst
  | succ k =>
    rw [← Exec.next_header]
    exact hrest k (Nat.lt_of_succ_lt_succ hk)

theorem lt_of_lt_stepCount {k size : ℕ} (h : k < stepCount 0 size) : k * PGSIZE < size := by
  have hpg : PGSIZE = 4096 := rfl
  unfold stepCount at h
  rw [hpg] at h ⊢
  omega

/-- `load_program` behind the allocation for a segment. -/
def Exec.loadSegment (A : Allocator) (file : ExecFile) (root n offset size : ℕ)
    (ph : ProgramHeader) : VmM (Except ExecError ℕ) := do
  match ← Exec.loadElfSegment A file root ph.vaddr (ph.offset % 2 ^ 32) ph.filesz
      (List.range (stepCount 0 ph.filesz)) with
  | .error _ =>
    Uvm.procFree A root size
    return .error .memory
  | .ok _ => Exec.loadProgram A file root n offset size

theorem MemOk.loadProgram_wp {n offset : ℕ} (h : MemOk vm roots own pte mem) (hi : roots i = none)
    (hb : Building roots own pte mem i r tr tf vm' sz b w) (hoff : offset < USIZE)
    (hE : ¬file.Bounded → ∀ e, E e)
    (hlost : ∀ e vm'' sz' b' w', Building roots own pte mem i r tr tf vm'' sz' b' w' →
      (∃ k < n, file ((offset + k * ProgramHeader.SIZE) % 2 ^ 32) ProgramHeader.SIZE = none) →
      Q (.error e) vm'') (herr : ∀ e vm'', Kept roots own pte mem i vm'' → Q (.error e) vm'')
    (hok : ∀ vm'' sz' b', Exec.programBytes file n offset (sz, b) = (sz', b') →
      (∀ k < n, Exec.HeaderOk file (offset + k * ProgramHeader.SIZE)) →
      Building roots own pte mem i r tr tf vm'' sz' b' (Exec.programWritable file n offset sz w) →
      Q (.ok sz') vm'') : wp (Exec.loadProgram A file r n offset sz) Q E vm' := by
  induction n generalizing offset sz b w vm' with
  | zero => exact wp_pure.2 (hok vm' sz b rfl (fun k hk => absurd hk (Nat.not_lt_zero k)) hb)
  | succ n ih =>
    rw [Exec.loadProgram]
    rw [Exec.programBytes, Exec.programWritable] at hok
    cases hread : file (offset % 2 ^ 32) ProgramHeader.SIZE with
    | none =>
      refine wp_pure.2 (hlost _ vm' sz b w hb ⟨0, Nat.succ_pos n, ?_⟩)
      rw [Nat.zero_mul, add_zero]
      exact hread
    | some buf =>
      rw [hread, Option.getD_some] at hok
      dsimp only at hok ⊢
      have hfirst : ((ProgramHeader.fromBytes buf).type = ProgramHeader.LOAD →
          (ProgramHeader.fromBytes buf).ok = true ∧ ∀ k < stepCount 0 (ProgramHeader.fromBytes buf).filesz,
            file ((ProgramHeader.fromBytes buf).offset % 2 ^ 32 + k * PGSIZE % 2 ^ 32)
              (min PGSIZE ((ProgramHeader.fromBytes buf).filesz - k * PGSIZE)) ≠ none) →
          Exec.HeaderOk file offset := fun hseg => ⟨buf, hread, hseg⟩
      generalize ProgramHeader.fromBytes buf = ph at hok hfirst ⊢
      have hlost' : ∀ e vm'' sz' b' w', Building roots own pte mem i r tr tf vm'' sz' b' w' →
          (∃ k < n, file ((offset + ProgramHeader.SIZE + k * ProgramHeader.SIZE) % 2 ^ 32)
            ProgramHeader.SIZE = none) → Q (.error e) vm'' := by
        rintro e vm'' sz' b' w' hb' ⟨k, hk, hno⟩
        exact hlost e vm'' sz' b' w' hb' ⟨k + 1, Nat.succ_lt_succ hk, Exec.next_header offset k ▸ hno⟩
      refine wp_bind.2 (usizeAdd_cases (fun hbig => hE (fun hbound => ?_) _) fun hfits => ?_)
      · -- a header that can be read does not end at the last machine word
        have hlim := hbound _ _ _ (by decide) hread
        have hmax : MAXFILE * BSIZE = 274432 := rfl
        have hsize : ProgramHeader.SIZE = 56 := rfl
        have hu : USIZE = 2 ^ 64 := rfl
        rw [hsize] at hbig hlim
        rw [hu] at hbig hoff
        omega
      by_cases htype : ph.type ≠ ProgramHeader.LOAD
      · rw [if_pos htype]
        simp only [if_pos htype] at hok
        exact ih hb hfits hlost' fun vm'' sz' b' heq hrest =>
          hok vm'' sz' b' heq (Exec.headerOk_succ (hfirst fun hload => absurd hload htype) hrest)
      · rw [if_neg htype]
        simp only [if_neg htype] at hok
        obtain ⟨own1, pte1, h1, hk1, ho1, him1, hw1⟩ := hb
        refine wp_ite (fun _ => wp_bind.2 ?_) fun hph => wp_bind.2 ?_
        · exact h.abandon_wp hi h1 hk1 ho1 him1.space fun vm'' hkept => wp_pure.2 (herr _ vm'' hkept)
        rw [not_not] at hph
        have hal : ph.vaddr % PGSIZE = 0 := by
          unfold ProgramHeader.ok at hph
          simp only [Bool.and_eq_true, beq_iff_eq] at hph
          exact hph.2
        have hself : upd roots i (some r) i = some r := upd_self _ _ _
        -- the segment is loaded once the image has its size
        have hload : ∀ {vm2 own2 pte2 size}, size = max sz (ph.vaddr + ph.memsz) →
            MemOk vm2 (upd roots i (some r)) own2 pte2 (upd mem i b) → SameOutside i own own2 →
            Others i pte pte2 → NewImageOk pte2 i tr tf size →
            ProgramPages pte2 i size (fun va => if roundUp sz ≤ va then ph.getPerms.isW else w va) →
            wp (Exec.loadSegment A file r n (offset + ProgramHeader.SIZE) size ph) Q E vm2 := by
          rintro vm2 own2 pte2 size rfl h2 hk2 ho2 him2 hw2
          unfold Exec.loadSegment
          rw [List.range_eq_range'] at hok ⊢
          refine wp_bind.2 (MemOk.loadElfSegment_wp hself him2 hal h2 hE
            (fun k hk => lt_of_lt_stepCount (by rwa [Nat.zero_add] at hk)) (fun _ _ => ?_)
            (fun e vm3 b' h3 => wp_bind.2 ?_)
            fun vm3 hreads h3 => ih ⟨own2, pte2, h3, hk2, ho2, him2, hw2⟩ hfits hlost' fun vm'' sz' b' heq hrest =>
              hok vm'' sz' b' heq (Exec.headerOk_succ (hfirst fun _ => ⟨hph, fun k hk =>
                hreads k (Nat.zero_le k) (by rwa [Nat.zero_add])⟩) hrest))
          · rw [Nat.zero_mul, Nat.zero_mod, add_zero]
            exact Nat.mod_lt _ (by decide)
          · exact h.abandon_wp hi h3 hk2 ho2 him2.space fun vm'' hkept => wp_pure.2 (herr _ vm'' hkept)
        refine h1.allocSpace_wp hself him1 (getPerms_lt ph) (fun hlt => ?_)
          (fun e vm2 own2 pte2 h2 hk2 ho2 hs2 => wp_bind.2 ?_) fun vm2 own2 pte2 hle h2 hk2 him2 hal2 => ?_
        · refine hload (max_eq_left hlt.le).symm h1 hk1 ho1 him1 fun k hk => ?_
          dsimp only
          rw [if_neg (not_le.2 (hk.trans_le (le_roundUp sz)))]
          exact hw1 k hk
        · exact h.abandon_wp hi h2 (hk1.trans hk2) (ho1.trans ho2) hs2 fun vm'' hkept => wp_pure.2 (herr _ vm'' hkept)
        · exact hload (max_eq_right hle).symm h2 (hk1.trans hk2) (ho1.trans hal2.others) him2 (hal2.programPages hw1)

/-! ## The stack -/

/-- The pages of an image: the program, a page that is not for the user, and the stack. -/
structure ImagePages (pte : ι → ℕ → Pte) (i : ι) (sz : ℕ) (w : ℕ → Bool) : Prop where
  program : ProgramPages pte i (sz - (USERSTACK + 1) * PGSIZE) w
  guard : ∀ k, uva k = sz - (USERSTACK + 1) * PGSIZE → (pte i (uva k)).isU = false
  stack : ∀ k, sz - USERSTACK * PGSIZE ≤ uva k → uva k < sz →
    (pte i (uva k)).isV = true ∧ (pte i (uva k)).isU = true ∧ (pte i (uva k)).isR = true ∧
      (pte i (uva k)).isW = true

omit [DecidableEq ι] [Fintype ι] in
theorem ImagePages.congr {j : ι} (h : ImagePages pte i sz w) (hpte : pte' j = pte i) :
    ImagePages pte' j sz w := by
  refine ⟨fun k hk => ?_, fun k hk => ?_, fun k hlo hhi => ?_⟩
  · rw [hpte]
    exact h.program k hk
  · rw [hpte]
    exact h.guard k hk
  · rw [hpte]
    exact h.stack k hlo hhi

variable (roots own pte mem i) in
def Stacked (r tr tf : ℕ) (vm' : Vm) (sz : ℕ) (b : Bytes) (w : ℕ → Bool) : Prop :=
  ∃ own' pte', MemOk vm' (upd roots i (some r)) own' pte' (upd mem i b) ∧ SameOutside i own own' ∧
    Others i pte pte' ∧ SpaceOk pte' i tr tf sz ∧ ImagePages pte' i sz w

omit [DecidableEq ι] in
theorem NewImageOk.roundUp (h : NewImageOk pte i tr tf sz) : NewImageOk pte i tr tf (roundUp sz) :=
  ⟨⟨roundUp_le_TRAPFRAME h.space.size, fun k hv => (h.space.below k hv).trans_le (le_roundUp sz),
    h.space.trampoline, h.space.trapframe⟩,
    fun k hlt => h.dense k ((lt_roundUp (uva_userVa k).aligned).1 hlt), h.alone⟩

omit [DecidableEq ι] [Fintype ι] in
theorem ProgramPages.roundUp (h : ProgramPages pte i sz w) : ProgramPages pte i (roundUp sz) w :=
  fun k hlt => h k ((lt_roundUp (uva_userVa k).aligned).1 hlt)

theorem MemOk.makeStack_wp (h : MemOk vm roots own pte mem) (hi : roots i = none)
    (hb : Building roots own pte mem i r tr tf vm' sz b w)
    (herr : ∀ e vm'', Kept roots own pte mem i vm'' → Q (.error e) vm'')
    (hok : ∀ vm'' sz', sz' = Octopos.roundUp sz + (USERSTACK + 1) * PGSIZE →
      Stacked roots own pte mem i r tr tf vm'' sz' b w → Q (.ok sz') vm'') :
    wp (Exec.makeStack A r sz) Q E vm' := by
  obtain ⟨own1, pte1, h1, hk1, ho1, him1, hw1⟩ := hb
  have hself : upd roots i (some r) i = some r := upd_self _ _ _
  have hal := roundUp_aligned sz
  have him := him1.roundUp
  have hw := hw1.roundUp
  have hfit : Octopos.roundUp sz + (USERSTACK + 1) * PGSIZE < USIZE :=
    lt_of_le_of_lt (Nat.add_le_add_right him.space.size _) (by decide)
  refine wp_bind.2 (pgRoundUp_wp (le_TRAPFRAME_fits him1.space.size) (wp_bind.2
    (usizeAdd_cases (fun hbig => absurd hfit (not_lt.2 hbig)) fun _ => ?_)))
  clear hfit
  generalize Octopos.roundUp sz = base at *
  have hguard : base + (USERSTACK + 1) * PGSIZE - (USERSTACK + 1) * PGSIZE = base := Nat.add_sub_cancel _ _
  have hbase : base + PGSIZE = base + (USERSTACK + 1) * PGSIZE - USERSTACK * PGSIZE := by
    rw [Nat.succ_mul]
    omega
  have hal' : (base + (USERSTACK + 1) * PGSIZE) % PGSIZE = 0 := by
    rw [Nat.add_mul_mod_self_right, hal]
  have hgt : base < base + (USERSTACK + 1) * PGSIZE := Nat.lt_add_of_pos_right (by decide)
  generalize base + (USERSTACK + 1) * PGSIZE = top at *
  have hguard' := hguard
  generalize (USERSTACK + 1) * PGSIZE = room at hguard ⊢
  refine wp_bind.2 (h1.allocSpace_wp hself him (by decide) (fun hlt => absurd hgt (not_lt.2 hlt.le))
    (fun e vm2 own2 pte2 h2 hk2 ho2 hs2 => wp_bind.2 ?_) fun vm2 own2 pte2 _ h2 hk2 him2 hal2 => ?_)
  · exact h.abandon_wp hi h2 (hk1.trans hk2) (ho1.trans ho2) hs2 fun vm'' hkept => wp_pure.2 (herr _ vm'' hkept)
  rw [roundUp_of_aligned hal, roundUp_of_aligned hal'] at hal2
  have habandon : wp (Uvm.procFree A r top) (fun _ vm'' =>
      wp (pure (.error .memory) : VmM (Except ExecError ℕ)) Q E vm'') E vm2 :=
    h.abandon_wp hi h2 (hk1.trans hk2) (ho1.trans hal2.others) him2.space fun vm'' hkept =>
      wp_pure.2 (herr _ vm'' hkept)
  dsimp only
  rw [hguard]
  refine wp_bind.2 (clear_wp (h2.trees.radix hself) (fun _ => wp_bind.2 habandon)
    (fun _ _ => wp_bind.2 habandon) fun t hlt2 ht => wp_pure.2 ?_)
  have hlow : base < TRAPFRAME := hgt.trans_le him2.space.size
  obtain ⟨k, rfl⟩ := (UserVa.mk hal hlow).exists_uva
  rw [h2.trees.entry hself _ hal hlt2]
  have htarget : Pte.target (pte2 i (uva k) &&& ~~~PTE_U) = (pte2 i (uva k)).target := by
    unfold Pte.target
    rw [Pte.isV_and_not _ (by decide), Pte.asPa_and_not _ (by decide)]
  have hwrite : Pte.isW (pte2 i (uva k) &&& ~~~PTE_U) = true → (pte2 i (uva k)).isW = true := by
    rw [Pte.isW_eq, Pte.isW_eq, BitVec.getLsbD_and, Bool.and_eq_true]
    exact And.left
  have h3 := h2.reflag hself (labels_eq_some.1 ht) htarget
    (fun hread => (Pte.isR_and_not _ (by decide)).trans hread) hwrite
  have hkeep : ∀ va, va ≠ uva k →
      setEntry pte2 i (uva k) (pte2 i (uva k) &&& ~~~PTE_U) i va = pte2 i va := fun va hne =>
    setEntry_of_ne (.inr hne)
  refine hok _ top rfl ⟨own2, _, h3, hk1.trans hk2, (ho1.trans hal2.others).trans (.set i pte2 _ _),
    ⟨him2.space.size, fun l hv => ?_, ?_, ?_⟩, ⟨fun l hl => ?_, fun l hl => ?_, fun l hl hlt => ?_⟩⟩
  · rcases eq_or_ne l k with rfl | hne
    · exact hgt
    · rw [hkeep _ fun heq => hne (uva_inj heq)] at hv
      exact him2.space.below l hv
  · rw [hkeep _ (hlow.trans (by decide)).ne']
    exact him2.space.trampoline
  · rw [hkeep _ hlow.ne']
    exact him2.space.trapframe
  · rw [hguard'] at hl
    rw [hkeep _ hl.ne, hal2.kept i _ (.inr (.inl hl))]
    exact hw l hl
  · rw [hguard'] at hl
    rw [hl, setEntry_self, Pte.isU_eq, BitVec.getLsbD_and]
    exact Bool.and_false _
  · have hpos : 0 < PGSIZE := by decide
    rw [hkeep _ (by omega)]
    exact hal2.page (by omega) hlt

/-! ## The arguments -/


omit [Fintype ι] in
theorem Copies.direct {len n : ℕ} {res : Except VmError PUnit} {t : List Pte}
    (h : Copies true i cur pte va len res n t pte') :
    (∀ k, uva k < va + len → va < uva k + PGSIZE → (pte i (uva k)).isV = true ∧
      (pte i (uva k)).isU = true ∧ (pte i (uva k)).isW = true) → va + len ≤ TRAPFRAME →
    res = .ok ⟨⟩ ∧ n = len ∧ pte' = pte := by
  induction h with
  | done => exact fun _ _ => ⟨rfl, rfl, rfl⟩
  | @stop pte va len e hlen hs =>
    intro hd htop
    have hpage : ∀ k, uva k = va / PGSIZE * PGSIZE →
        (pte i (uva k)).isV = true ∧ (pte i (uva k)).isU = true ∧ (pte i (uva k)).isW = true := by
      intro k hk
      have hle := Nat.div_mul_le_self va PGSIZE
      have hlt := Nat.lt_div_mul_add (a := va) (show 0 < PGSIZE by decide)
      exact hd k (by omega) (by omega)
    exfalso
    cases hs with
    | alloc hno =>
      have hlow : va / PGSIZE * PGSIZE < TRAPFRAME := lt_of_le_of_lt (Nat.div_mul_le_self va PGSIZE) (by omega)
      obtain ⟨k, hk⟩ := (UserVa.mk (Nat.mul_mod_left _ _) hlow).exists_uva
      have := hno k hk
      rw [(hpage k hk).1, (hpage k hk).2.1] at this
      cases this
    | outside hge => omega
    | beyond hk _ hno =>
      rw [(hpage _ hk).1, (hpage _ hk).2.1] at hno
      cases hno
    | guarded hk _ hu _ =>
      rw [(hpage _ hk).2.1] at hu
      cases hu
    | readOnly hk _ _ _ hw =>
      rw [(hpage _ hk).2.2] at hw
      cases hw
  | @page pte pte' va len n k e res t hlen hk he hw hrest ih =>
    intro hd htop
    have hle := Nat.div_mul_le_self va PGSIZE
    have hlt := Nat.lt_div_mul_add (a := va) (show 0 < PGSIZE by decide)
    obtain ⟨hv, hu, _⟩ := hd k (by omega) (by omega)
    have hself : e = pte i (uva k) := by
      cases he with
      | direct _ _ => rfl
      | fixed _ hno _ =>
        rw [hv, hu] at hno
        cases hno
    rw [hself, setEntry_eq_self] at ih
    have hpart := pagePart_le va len
    have hd' : ∀ l, uva l < uva k + PGSIZE + (len - pagePart va len) → uva k + PGSIZE < uva l + PGSIZE →
        (pte i (uva l)).isV = true ∧ (pte i (uva l)).isU = true ∧ (pte i (uva l)).isW = true := by
      intro l hl1 hl2
      rcases pagePart_cases va len with ⟨hall, -⟩ | hnext
      · rw [hall, Nat.sub_self, add_zero] at hl1
        exfalso
        rcases uva_cases hl1 with hl | rfl
        · omega
        · omega
      · exact hd l (by omega) (by omega)
    have htop' : uva k + PGSIZE + (len - pagePart va len) ≤ TRAPFRAME := by
      rcases pagePart_cases va len with ⟨hall, -⟩ | hnext
      · rw [hall, Nat.sub_self, add_zero]
        exact uva_next_le k
      · omega
    obtain ⟨hres, hn, hpte⟩ := ih hd' htop'
    exact ⟨hres, by omega, hpte⟩

theorem MemOk.abandonStack_wp {α : Type} {e : ExecError} {Q : Except ExecError α → Vm → Prop}
    (h : MemOk vm roots own pte mem) (hi : roots i = none)
    (hs : Stacked roots own pte mem i r tr tf vm' sz b w)
    (herr : ∀ vm'', Kept roots own pte mem i vm'' → Q (.error e) vm'') :
    wp (Exec.abandon A r sz e) Q E vm' := by
  obtain ⟨own1, pte1, h1, hk1, ho1, hsp1, _⟩ := hs
  exact wp_bind.2 (h.abandon_wp hi h1 hk1 ho1 hsp1 fun vm'' hkept => wp_pure.2 (herr vm'' hkept))

theorem push_wp {src : List UInt8} {Q : Bool → Vm → Prop} (hcur : cur ≤ TRAPFRAME)
    (hs : Stacked roots own pte mem i r tr tf vm' sz b w) (hal : sz % PGSIZE = 0)
    (hlo : sz - USERSTACK * PGSIZE ≤ va) (hhi : va + src.length ≤ sz)
    (hQ : ∀ vm'',
      Stacked roots own pte mem i r tr tf vm'' sz (blit b va src.length fun x => src.getD x 0) w →
      Q true vm'') : wp (Exec.push A r cur src va) Q E vm' := by
  obtain ⟨own1, pte1, h1, hk1, ho1, hsp1, hst1⟩ := hs
  have hsize := hsp1.size
  have hva : va < 2 ^ 64 := by
    have htf : TRAPFRAME = 2 ^ 38 - 8192 := rfl
    omega
  refine wp_bind.2 (MemOk.copyTo_wp (upd_self _ _ _) hcur le_rfl h1 hva hsp1.highOk
    fun res t n vm2 own2 pte2 h2 hk2 hc => wp_pure.2 ?_)
  have hal' : (sz - USERSTACK * PGSIZE) % PGSIZE = 0 := by
    have hst : USERSTACK * PGSIZE = 16384 := rfl
    have hpg : PGSIZE = 4096 := rfl
    rw [hst, hpg]
    rw [hpg] at hal
    omega
  have hpages : ∀ k : Fin USERPAGES, va < uva k + PGSIZE → sz - USERSTACK * PGSIZE ≤ uva k := by
    intro k hge
    have ha := (uva_userVa k).aligned
    have hpg : PGSIZE = 4096 := rfl
    generalize sz - USERSTACK * PGSIZE = lo at hal' hlo ⊢
    rw [hpg] at ha hal' hge
    omega
  have hwritable : ∀ k, uva k < va + src.length → va < uva k + PGSIZE →
      (pte1 i (uva k)).isV = true ∧ (pte1 i (uva k)).isU = true ∧ (pte1 i (uva k)).isW = true := by
    intro k hlt hge
    obtain ⟨hv, hu, -, hw⟩ := hst1.stack k (hpages k hge) (hlt.trans_le hhi)
    exact ⟨hv, hu, hw⟩
  obtain ⟨rfl, rfl, rfl⟩ := hc.direct hwritable (hhi.trans hsize)
  rw [setBytes_upd] at h2
  exact hQ vm2 ⟨own2, pte2, h2, hk1.trans hk2, ho1, hsp1, hst1⟩

theorem MemOk.pushArgs_wp {sp base : ℕ} {Q : Except ExecError (ℕ × List ℕ) → Vm → Prop}
    (h : MemOk vm roots own pte mem) (hi : roots i = none) (hcur : cur ≤ TRAPFRAME)
    (hs : Stacked roots own pte mem i r tr tf vm' sz b w) (hal : sz % PGSIZE = 0)
    (hbase : base = sz - USERSTACK * PGSIZE) (hsp : sp ≤ sz)
    (hpanic : Exec.argFit base argv sp ustack.length = .panics → E .overflow)
    (herr : Exec.argFit base argv sp ustack.length = .fails → ∀ e vm'',
      Kept roots own pte mem i vm'' → Q (.error e) vm'')
    (hok : ∀ vm'' sp' ustack' b', Exec.argBytes argv (sp, ustack, b) = (sp', ustack', b') →
      sp' ≤ sz → Exec.argFit base argv sp ustack.length = Exec.argFit base [] sp' ustack'.length →
      Stacked roots own pte mem i r tr tf vm'' sz b' w → Q (.ok (sp', ustack')) vm'') :
    wp (Exec.pushArgs A r sz cur base argv sp ustack) Q E vm' := by
  induction argv generalizing sp ustack b vm' with
  | nil => exact wp_pure.2 (hok vm' sp ustack b rfl hsp rfl hs)
  | cons arg argv ih =>
    rw [Exec.pushArgs]
    rw [Exec.argBytes] at hok
    rw [Exec.argFit] at hpanic herr hok
    refine wp_ite (fun hfull => h.abandonStack_wp hi hs (herr (if_pos hfull) _)) fun hroom => ?_
    rw [if_neg hroom] at hpanic herr hok
    refine wp_bind.2 (usizeSub_cases (fun hlt => hpanic (if_pos hlt)) fun hle => ?_)
    rw [if_neg (not_lt.2 hle)] at hpanic herr hok
    dsimp only
    unfold Exec.place at hpanic herr hok
    generalize hsp' : sp - (arg.length + 1) - (sp - (arg.length + 1)) % 16 = sp' at hpanic herr hok ⊢
    have hfit : sp' + arg.length + 1 ≤ sz := by omega
    refine wp_ite (fun hlow => h.abandonStack_wp hi hs (herr (if_pos hlow) _)) fun hlo => ?_
    rw [if_neg hlo] at hpanic herr hok
    rw [not_lt] at hlo
    have hlo' : sz - USERSTACK * PGSIZE ≤ sp' := hbase ▸ hlo
    refine wp_bind.2 (push_wp hcur hs hal hlo' (by omega) fun vm1 hs1 => ?_)
    refine wp_ite (fun hno => absurd rfl hno) fun _ => ?_
    refine wp_bind.2 (push_wp hcur hs1 hal (hlo'.trans (Nat.le_add_right _ _)) hfit fun vm2 hs2 => ?_)
    refine wp_ite (fun hno => absurd rfl hno) fun _ => ?_
    have hlen : (ustack ++ [sp']).length = ustack.length + 1 := List.length_append
    refine ih hs2 (by omega) (by rwa [hlen]) (by rwa [hlen]) fun vm'' sp'' ustack'' b'' heq hle' hargs =>
      hok vm'' sp'' ustack'' b'' ?_ hle' (by rwa [hlen] at hargs)
    have hzero : (fun x => ([0] : List UInt8).getD x 0) = fun _ => 0 := funext fun x => by cases x <;> rfl
    rw [← heq, hzero]
    rfl

theorem length_ustackBytes (ustack : List ℕ) :
    (Exec.ustackBytes ustack).length = (ustack.length + 1) * 8 := by
  unfold Exec.ustackBytes
  rw [List.length_flatMap]
  simp only [List.map_append, List.map_const', List.length_map, List.length_range]
  simp
  omega

theorem MemOk.pushStack_wp {Q : Except ExecError ExecImage → Vm → Prop}
    (h : MemOk vm roots own pte mem) (hi : roots i = none) (hcur : cur ≤ TRAPFRAME)
    (hs : Stacked roots own pte mem i r tr tf vm' sz b w) (hal : sz % PGSIZE = 0)
    (hpanic : Exec.argFit (sz - USERSTACK * PGSIZE) argv sz 0 = .panics → ∀ e, E e)
    (herr : Exec.argFit (sz - USERSTACK * PGSIZE) argv sz 0 = .fails → ∀ e vm'',
      Kept roots own pte mem i vm'' → Q (.error e) vm'')
    (hok : ∀ vm'' sp ustack b', Exec.argBytes argv (sz, [], b) = (sp, ustack, b') →
      Exec.argFit (sz - USERSTACK * PGSIZE) argv sz 0 = .fits →
      Stacked roots own pte mem i r tr tf vm'' sz
        (blit b' (Exec.place sp ((ustack.length + 1) * 8)) (Exec.ustackBytes ustack).length fun x =>
            (Exec.ustackBytes ustack).getD x 0) w →
      Q (.ok ⟨r, sz, Exec.place sp ((ustack.length + 1) * 8), ustack.length⟩) vm'') :
    wp (Exec.pushStack A r sz cur argv) Q E vm' := by
  unfold Exec.pushStack
  dsimp only
  generalize hbase : sz - USERSTACK * PGSIZE = base at *
  refine wp_bind.2 (h.pushArgs_wp hi hcur hs hal hbase.symm le_rfl (fun hno => hpanic hno _)
    (fun hno e vm'' hkept => wp_pure.2 (herr hno e vm'' hkept)) fun vm1 sp ustack b1 heq hsp hargs hs1 => ?_)
  dsimp only
  change Exec.argFit base argv sz 0 = _ at hargs
  have hok' := fun vm'' => hok vm'' sp ustack b1 heq
  rw [hargs, Exec.argFit] at hpanic herr hok'
  refine wp_ite (fun hfull => hpanic (if_pos hfull) _) fun hroom => ?_
  rw [if_neg hroom] at hpanic herr hok'
  refine wp_bind.2 (usizeSub_cases (fun hlt => hpanic (if_pos hlt) _) fun hle => ?_)
  rw [if_neg (not_lt.2 hle)] at hpanic herr hok'
  unfold Exec.place at herr hok'
  generalize hsp' : sp - (ustack.length + 1) * 8 - (sp - (ustack.length + 1) * 8) % 16 = sp' at herr hok' ⊢
  refine wp_ite (fun hlow => h.abandonStack_wp hi hs1 (herr (if_pos hlow) _)) fun hlo => ?_
  have hlo' : sz - USERSTACK * PGSIZE ≤ sp' := hbase ▸ not_lt.1 hlo
  have hfit : sp' + (Exec.ustackBytes ustack).length ≤ sz := by
    rw [length_ustackBytes]
    omega
  refine wp_bind.2 (push_wp hcur hs1 hal hlo' hfit fun vm2 hs2 => ?_)
  exact wp_ite (fun hno => absurd rfl hno) fun _ => wp_pure.2 (hok' vm2 (if_neg hlo) hs2)

theorem Building.forget (h : MemOk vm roots own pte mem) (hi : roots i = none)
    (hb : Building roots own pte mem i r tr tf vm' sz b w) :
    ∃ own', MemOk vm' roots own' pte mem ∧ ∀ a, own' a = some .kernel ↔ own a = some .kernel := by
  obtain ⟨own1, pte1, h1, hk1, ho1, him1, _⟩ := hb
  have hself : upd roots i (some r) i = some r := upd_self _ _ _
  have hlost : MemOk vm' (upd (upd roots i (some r)) i none) (forgetOwner own1 pte1 i)
      (upd pte1 i fun _ => 0) mem := h1.forget hself him1.alone (fun hj => (upd_of_ne hj).symm)
    fun l off hoff => by rw [h.views i l off hoff, h.trees.blank hi]; rfl
  refine ⟨_, h.abandoned hi hlost ho1 fun _ _ => rfl, fun a => ?_⟩
  rw [← hk1.kernel a]
  unfold forgetOwner
  split_ifs with hp
  · refine ⟨fun h => (by cases h), fun hk => ?_⟩
    rcases hp with ⟨n, hn⟩ | ⟨l, hl⟩
    · rw [hn] at hk
      cases hk
    · rw [h1.users.owner hl] at hk
      cases hk
  · rfl

namespace Exec

def elf (file : ExecFile) : ElfHeader :=
  ElfHeader.fromBytes ((file 0 ElfHeader.SIZE).getD fun _ => 0)

/-- The size and the bytes of the program. -/
def program (file : ExecFile) : ℕ × Bytes :=
  programBytes file (elf file).phnum (elf file).phoff (0, fun _ => 0)

def top (file : ExecFile) : ℕ := roundUp (program file).1 + (USERSTACK + 1) * PGSIZE

/-- The pages of the program that can be written. -/
def writable (file : ExecFile) : ℕ → Bool :=
  programWritable file (elf file).phnum (elf file).phoff 0 fun _ => false

/-- The file is an executable, and its program headers and segments can be read. -/
structure Loadable (file : ExecFile) : Prop where
  header : file 0 ElfHeader.SIZE ≠ none
  magic : (elf file).magic = ELFMAGIC
  segments : ∀ k < (elf file).phnum, HeaderOk file ((elf file).phoff + k * ProgramHeader.SIZE)

/-- `image` up to the arguments: the page table and the size. -/
def prepare (A : Allocator) (trampoline : ℕ) (file : ExecFile) (trapframe : ℕ) :
    VmM (Except ExecError (ℕ × ℕ)) := do
  match file 0 ElfHeader.SIZE with
  | none => return .error .read
  | some buf =>
    let elf := ElfHeader.fromBytes buf
    if elf.magic ≠ ELFMAGIC then return .error .elf
    else
      match ← Proc.createPagetable A trampoline trapframe with
      | .error _ => return .error .alloc
      | .ok root =>
        match ← loadProgram A file root elf.phnum elf.phoff 0 with
        | .error e => return .error e
        | .ok size =>
          match ← makeStack A root size with
          | .error e => return .error e
          | .ok size => return .ok (root, size)

end Exec

theorem Exec.image_eq :
    Exec.image A tr file tf cur argv = (do
      match ← Exec.prepare A tr file tf with
      | .error e => return .error e
      | .ok (root, size) => Exec.pushStack A root size cur argv) := by
  unfold Exec.image Exec.prepare
  cases file 0 ElfHeader.SIZE with
  | none => rfl
  | some buf =>
    dsimp only
    split_ifs
    · rfl
    · rw [bind_assoc]
      refine bind_congr fun root => ?_
      cases root with
      | error e => rfl
      | ok root =>
        dsimp only
        rw [bind_assoc]
        refine bind_congr fun size => ?_
        cases size with
        | error e => rfl
        | ok size =>
          dsimp only
          rw [bind_assoc]
          refine bind_congr fun top => ?_
          cases top with
          | error e => rfl
          | ok top => rfl

theorem MemOk.prepare_wp {Q : Except ExecError (ℕ × ℕ) → Vm → Prop}
    (h : MemOk vm roots own pte mem) (hi : roots i = none) (hE : ¬file.Bounded → ∀ e, E e)
    (hlost : ∀ e r vm' sz b w, ¬Exec.HeadersReadable file →
      Building roots own pte mem i r tr tf vm' sz b w → Q (.error e) vm')
    (herr : ∀ e vm', Kept roots own pte mem i vm' → Q (.error e) vm')
    (hok : ∀ r vm', Exec.Loadable file →
      Stacked roots own pte mem i r tr tf vm' (Exec.top file) (Exec.program file).2
        (Exec.writable file) → Q (.ok (r, Exec.top file)) vm') :
    wp (Exec.prepare A tr file tf) Q E vm := by
  have hkept : Kept roots own pte mem i vm := ⟨own, h, .refl own⟩
  unfold Exec.prepare
  cases hread : file 0 ElfHeader.SIZE with
  | none => exact wp_pure.2 (herr _ vm hkept)
  | some buf =>
    have helf : ElfHeader.fromBytes buf = Exec.elf file := by
      unfold Exec.elf
      rw [hread, Option.getD_some]
    dsimp only
    rw [helf]
    refine wp_ite (fun _ => wp_pure.2 (herr _ vm hkept)) fun hmagic => ?_
    refine wp_bind.2 (h.createPagetable_wp hi (fun e vm' own' h' hk' => wp_pure.2 (herr _ vm' ⟨own', h', hk'⟩))
      fun r vm1 own1 pte1 h1 hk1 ho1 hs1 => ?_)
    have hb : Building roots own pte mem i r tr tf vm1 0 (fun _ => 0) fun _ => false := by
      refine ⟨own1, pte1, h1.congr_mem fun j k off hoff => ?_, hk1, ho1, ⟨hs1, fun k hlt =>
        absurd hlt (Nat.not_lt_zero _), fun k hv => absurd (hs1.below k hv) (Nat.not_lt_zero _)⟩,
        fun k hlt => absurd hlt (Nat.not_lt_zero _)⟩
      rcases eq_or_ne j i with rfl | hne
      · rw [upd_self, h.views j k off hoff, h.trees.blank hi]
        rfl
      · rw [upd_of_ne hne]
    refine wp_bind.2 (h.loadProgram_wp hi hb (leNat_lt _ _ _) hE (fun e vm2 sz' b' w' hb' hno => wp_pure.2 ?_)
      (fun e vm2 hkept => wp_pure.2 (herr e vm2 hkept)) fun vm2 sz2 b2 heq2 hheaders hb2 => ?_)
    · refine hlost e r vm2 sz' b' w' (fun hreads => ?_) hb'
      obtain ⟨k, hk, hnone⟩ := hno
      rw [← helf] at hk hnone
      exact hreads buf hread k hk hnone
    refine wp_bind.2 (h.makeStack_wp hi hb2 (fun e vm3 hkept => wp_pure.2 (herr e vm3 hkept))
      fun vm3 sz3 hsz3 hs3 => wp_pure.2 ?_)
    have hprogram : Exec.program file = (sz2, b2) := heq2
    have htop : sz3 = Exec.top file := by
      unfold Exec.top
      rw [hprogram]
      exact hsz3
    have hbytes : b2 = (Exec.program file).2 := by rw [hprogram]
    subst htop hbytes
    refine hok r vm3 ⟨?_, not_not.1 hmagic, hheaders⟩ hs3
    rw [hread]
    exact Option.some_ne_none buf

theorem Exec.top_aligned (file : ExecFile) : Exec.top file % PGSIZE = 0 := by
  unfold Exec.top
  rw [Nat.add_mul_mod_self_right]
  exact roundUp_aligned _

/-- The stack pointer of the image, and the addresses of its arguments. -/
def Exec.pushed (file : ExecFile) (argv : List (List UInt8)) : ℕ × List ℕ × Bytes :=
  Exec.argBytes argv (Exec.top file, [], (Exec.program file).2)

/-- An image that was made from a file and arguments. -/
structure Exec.Made (file : ExecFile) (argv : List (List UInt8)) (img : ExecImage) : Prop where
  loadable : Exec.Loadable file
  size : img.size = Exec.top file
  fits : Exec.argFit (Exec.top file - USERSTACK * PGSIZE) argv (Exec.top file) 0 = .fits
  sp : img.sp = Exec.place (Exec.pushed file argv).1 (((Exec.pushed file argv).2.1.length + 1) * 8)
  argc : img.argc = (Exec.pushed file argv).2.1.length

theorem Exec.imageBytes_eq {sp : ℕ} {b' : Bytes}
    (hpushed : Exec.pushed file argv = (sp, ustack, b')) :
    Exec.imageBytes file argv =
      blit b' (Exec.place sp ((ustack.length + 1) * 8)) (Exec.ustackBytes ustack).length fun x =>
        (Exec.ustackBytes ustack).getD x 0 := by
  unfold Exec.pushed Exec.top at hpushed
  rcases hprogram : Exec.program file with ⟨size, b⟩
  rw [hprogram] at hpushed
  unfold Exec.imageBytes
  unfold Exec.program Exec.elf at hprogram
  dsimp only
  rw [hprogram]
  dsimp only at hpushed ⊢
  rw [hpushed]
  rfl

theorem MemOk.pushImage_wp {Q : Except ExecError ExecImage → Vm → Prop}
    (h : MemOk vm roots own pte mem) (hi : roots i = none) (hcur : cur ≤ TRAPFRAME)
    (hl : Exec.Loadable file)
    (hs : Stacked roots own pte mem i r tr tf vm' (Exec.top file) (Exec.program file).2
        (Exec.writable file))
    (hpanic : Exec.argFit (Exec.top file - USERSTACK * PGSIZE) argv (Exec.top file) 0 = .panics →
      ∀ e, E e)
    (herr : Exec.argFit (Exec.top file - USERSTACK * PGSIZE) argv (Exec.top file) 0 = .fails →
      ∀ e vm'', Kept roots own pte mem i vm'' → Q (.error e) vm'')
    (hok : ∀ img vm'', img.root = r → Exec.Made file argv img →
      Stacked roots own pte mem i r tr tf vm'' img.size (Exec.imageBytes file argv)
        (Exec.writable file) → Q (.ok img) vm'') :
    wp (Exec.pushStack A r (Exec.top file) cur argv) Q E vm' := by
  refine h.pushStack_wp hi hcur hs (Exec.top_aligned file) hpanic herr fun vm'' sp ustack b' heq hfits hs' => ?_
  have hpushed : Exec.pushed file argv = (sp, ustack, b') := heq
  refine hok _ vm'' rfl ⟨hl, rfl, hfits, by rw [hpushed], by rw [hpushed]⟩ ?_
  rw [Exec.imageBytes_eq hpushed]
  exact hs'

end Building

end Octopos
