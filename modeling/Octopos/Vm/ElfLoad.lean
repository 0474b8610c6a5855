import Octopos.Vm.ArgStack

/-!
# Loading an executable

The program headers of an executable say which bytes of the file go where. `exec` keeps the offsets
of the headers and of the segments in 32 bits, so a header or a segment with a larger offset is
silently replaced by what stands at the truncated offset (`exec_truncates`). A program with
increasing segments is loaded as its headers say exactly if no offset is truncated
(`exec_loads`).
-/

namespace Octopos

/-- What is read from the file are the bytes of `data`. -/
def ExecFile.Reads (file : ExecFile) (data : List UInt8) : Prop :=
  ∀ o n b, 0 < n → file o n = some b → o + n ≤ data.length ∧ ∀ x < n, b x = data.getD (o + x) 0

namespace Exec

variable {file : ExecFile} {data : List UInt8} {va offset size n k l m v : ℕ} {b : Bytes} {w : ℕ → Bool}

/-! ## Segments -/

theorem segmentBytes_keep {ks : List ℕ}
    (hks : ∀ k ∈ ks, v < va + k * PGSIZE ∨ va + k * PGSIZE + min PGSIZE (size - k * PGSIZE) ≤ v) :
    segmentBytes file va offset size ks b v = b v := by
  induction ks generalizing b with
  | nil => rfl
  | cons k ks ih =>
    obtain ⟨hk, hrest⟩ := List.forall_mem_cons.1 hks
    rw [segmentBytes, ih hrest, blit_outside hk]

theorem segmentBytes_outside (hv : v < va ∨ va + size ≤ v) :
    segmentBytes file va offset size (List.range (stepCount 0 size)) b v = b v := by
  refine segmentBytes_keep fun k hk => ?_
  have hlt := lt_of_lt_stepCount (List.mem_range.1 hk)
  omega

theorem segmentBytes_page {buf : Bytes} {y : ℕ} (hlo : l ≤ k) (hhi : k < l + m)
    (hread : file (offset + k * PGSIZE % 2 ^ 32) (min PGSIZE (size - k * PGSIZE)) = some buf)
    (hy : y < min PGSIZE (size - k * PGSIZE)) :
    segmentBytes file va offset size (List.range' l m) b (va + k * PGSIZE + y) = buf y := by
  induction m generalizing l b with
  | zero => omega
  | succ m ih =>
    rw [List.range'_succ, segmentBytes]
    rcases hlo.eq_or_lt with rfl | hlt
    · -- the pages that follow are above
      rw [segmentBytes_keep fun k' hk' => ?_, blit_inside hy, hread, Option.getD_some]
      have hmul := Nat.mul_le_mul_right PGSIZE (List.mem_range'_1.1 hk').1
      rw [Nat.succ_mul] at hmul
      omega
    · exact ih hlt (by omega)

theorem segmentBytes_data (hdata : file.Reads data) (hshort : data.length < 2 ^ 32)
    (hreads : ∀ k < stepCount 0 size,
      file (offset + k * PGSIZE % 2 ^ 32) (min PGSIZE (size - k * PGSIZE)) ≠ none) {x : ℕ}
    (hx : x < size) :
    offset + size ≤ data.length ∧
    segmentBytes file va offset size (List.range (stepCount 0 size)) b (va + x) =
      data.getD (offset + x) 0 := by
  have hpg : PGSIZE = 4096 := rfl
  have hcount : ∀ k, k < stepCount 0 size ↔ k * PGSIZE < size := fun k => by
    unfold stepCount
    rw [hpg]
    omega
  have hpage : ∀ k, k * PGSIZE < size → ∃ buf,
      file (offset + k * PGSIZE % 2 ^ 32) (min PGSIZE (size - k * PGSIZE)) = some buf ∧
      offset + k * PGSIZE % 2 ^ 32 + min PGSIZE (size - k * PGSIZE) ≤ data.length ∧
      ∀ y < min PGSIZE (size - k * PGSIZE), buf y = data.getD (offset + k * PGSIZE % 2 ^ 32 + y) 0 := by
    intro k hk
    obtain ⟨buf, hbuf⟩ := Option.ne_none_iff_exists'.1 (hreads k ((hcount k).2 hk))
    exact ⟨buf, hbuf, hdata _ _ _ (by omega) hbuf⟩
  have hpage' := hpage
  rw [hpg] at hpage'
  -- the last page below 2^32 would end behind the file
  have hsmall : size ≤ 2 ^ 32 := by
    by_contra hbig
    obtain ⟨-, -, hend, -⟩ := hpage' (2 ^ 20 - 1) (by omega)
    omega
  have hend : offset + size ≤ data.length := by
    obtain ⟨-, -, hend, -⟩ := hpage' ((size - 1) / 4096) (by omega)
    omega
  have hfirst : x / PGSIZE * PGSIZE < size := lt_of_le_of_lt (Nat.div_mul_le_self x PGSIZE) hx
  have hy : x % PGSIZE < min PGSIZE (size - x / PGSIZE * PGSIZE) := by
    rw [hpg]
    omega
  obtain ⟨buf, hbuf, -, hbytes⟩ := hpage _ hfirst
  refine ⟨hend, ?_⟩
  have hplace : va + x / PGSIZE * PGSIZE + x % PGSIZE = va + x := by
    rw [Nat.add_assoc, Nat.div_add_mod']
  rw [List.range_eq_range', ← hplace, segmentBytes_page (Nat.zero_le _) (by rwa [Nat.zero_add, hcount]) hbuf hy,
    hbytes _ hy]
  congr 1
  rw [hpg]
  omega

/-! ## Programs -/

/-- The program header that `exec` takes for number `k`. -/
def header (file : ExecFile) (offset k : ℕ) : ProgramHeader :=
  .fromBytes ((file ((offset + k * ProgramHeader.SIZE) % 2 ^ 32) ProgramHeader.SIZE).getD fun _ => 0)

theorem header_zero (file : ExecFile) (offset : ℕ) :
    header file offset 0 =
      .fromBytes ((file (offset % 2 ^ 32) ProgramHeader.SIZE).getD fun _ => 0) := by
  unfold header
  rw [Nat.zero_mul, Nat.add_zero]

theorem header_next (file : ExecFile) (offset k : ℕ) :
    header file (offset + ProgramHeader.SIZE) k = header file offset (k + 1) := by
  unfold header
  rw [next_header]

theorem programBytes_succ (file : ExecFile) (n offset size : ℕ) (b : Bytes) :
    programBytes file (n + 1) offset (size, b) = programBytes file n (offset + ProgramHeader.SIZE)
      (if (header file offset 0).type = ProgramHeader.LOAD then
        (max size ((header file offset 0).vaddr + (header file offset 0).memsz),
          segmentBytes file (header file offset 0).vaddr ((header file offset 0).offset % 2 ^ 32)
            (header file offset 0).filesz (List.range (stepCount 0 (header file offset 0).filesz)) b)
      else (size, b)) := by
  rw [programBytes, ← header_zero]
  by_cases hload : (header file offset 0).type = ProgramHeader.LOAD
  · rw [if_pos hload, if_neg (not_not.2 hload)]
  · rw [if_neg hload, if_pos hload]

theorem programWritable_succ (file : ExecFile) (n offset size : ℕ) (w : ℕ → Bool) :
    programWritable file (n + 1) offset size w =
      if (header file offset 0).type = ProgramHeader.LOAD then
        programWritable file n (offset + ProgramHeader.SIZE)
          (max size ((header file offset 0).vaddr + (header file offset 0).memsz))
          fun va => if roundUp size ≤ va then (header file offset 0).getPerms.isW else w va
      else programWritable file n (offset + ProgramHeader.SIZE) size w := by
  rw [programWritable, ← header_zero]
  by_cases hload : (header file offset 0).type = ProgramHeader.LOAD
  · rw [if_pos hload, if_neg (not_not.2 hload)]
  · rw [if_neg hload, if_pos hload]

theorem programBytes_keep
    (hv : ∀ k < n, (header file offset k).type = ProgramHeader.LOAD →
      v < (header file offset k).vaddr ∨
      (header file offset k).vaddr + (header file offset k).filesz ≤ v) :
    (programBytes file n offset (size, b)).2 v = b v := by
  induction n generalizing offset size b with
  | zero => rfl
  | succ n ih =>
    have hrest : ∀ k < n, (header file (offset + ProgramHeader.SIZE) k).type = ProgramHeader.LOAD →
        v < (header file (offset + ProgramHeader.SIZE) k).vaddr ∨
          (header file (offset + ProgramHeader.SIZE) k).vaddr +
            (header file (offset + ProgramHeader.SIZE) k).filesz ≤ v := by
      intro k hk
      rw [header_next]
      exact hv (k + 1) (Nat.succ_lt_succ hk)
    rw [programBytes_succ]
    split_ifs with hload
    · rw [ih hrest, segmentBytes_outside (hv 0 (Nat.succ_pos n) hload)]
    · exact ih hrest

theorem programBytes_segment (hk : k < n)
    (hload : (header file offset k).type = ProgramHeader.LOAD)
    (hlater : ∀ j, k < j → j < n → (header file offset j).type = ProgramHeader.LOAD →
      v < (header file offset j).vaddr ∨
      (header file offset j).vaddr + (header file offset j).filesz ≤ v) :
    ∃ b', (programBytes file n offset (size, b)).2 v =
      segmentBytes file (header file offset k).vaddr ((header file offset k).offset % 2 ^ 32)
      (header file offset k).filesz (List.range (stepCount 0 (header file offset k).filesz)) b'
      v := by
  induction n generalizing offset size b k with
  | zero => exact absurd hk (Nat.not_lt_zero k)
  | succ n ih =>
    rw [programBytes_succ]
    cases k with
    | zero =>
      rw [if_pos hload]
      refine ⟨b, programBytes_keep fun j hj => ?_⟩
      rw [header_next]
      exact hlater (j + 1) (Nat.succ_pos j) (Nat.succ_lt_succ hj)
    | succ k =>
      rw [← header_next] at hload ⊢
      have hlater' : ∀ j, k < j → j < n → (header file (offset + ProgramHeader.SIZE) j).type = ProgramHeader.LOAD →
          v < (header file (offset + ProgramHeader.SIZE) j).vaddr ∨
            (header file (offset + ProgramHeader.SIZE) j).vaddr +
              (header file (offset + ProgramHeader.SIZE) j).filesz ≤ v := by
        intro j hkj hj
        rw [header_next]
        exact hlater (j + 1) (Nat.succ_lt_succ hkj) (Nat.succ_lt_succ hj)
      split_ifs
      · exact ih (Nat.lt_of_succ_lt_succ hk) hload hlater'
      · exact ih (Nat.lt_of_succ_lt_succ hk) hload hlater'

theorem programBytes_size :
    size ≤ (programBytes file n offset (size, b)).1 ∧
    ∀ k < n, (header file offset k).type = ProgramHeader.LOAD →
    (header file offset k).vaddr + (header file offset k).memsz ≤
      (programBytes file n offset (size, b)).1 := by
  induction n generalizing offset size b with
  | zero => exact ⟨le_rfl, fun k hk => absurd hk (Nat.not_lt_zero k)⟩
  | succ n ih =>
    rw [programBytes_succ]
    have hnext : ∀ {size : ℕ} {b : Bytes}, ∀ k < n, (header file offset (k + 1)).type = ProgramHeader.LOAD →
        (header file offset (k + 1)).vaddr + (header file offset (k + 1)).memsz ≤
          (programBytes file n (offset + ProgramHeader.SIZE) (size, b)).1 := by
      intro size b k hk
      rw [← header_next]
      exact ih.2 k hk
    split_ifs with hload
    · refine ⟨(le_max_left _ _).trans ih.1, fun k hk hloadk => ?_⟩
      cases k with
      | zero => exact (le_max_right _ _).trans ih.1
      | succ k => exact hnext k (Nat.lt_of_succ_lt_succ hk) hloadk
    · refine ⟨ih.1, fun k hk hloadk => ?_⟩
      cases k with
      | zero => exact absurd hloadk hload
      | succ k => exact hnext k (Nat.lt_of_succ_lt_succ hk) hloadk

theorem programWritable_keep (hva : va < size) :
    programWritable file n offset size w va = w va := by
  induction n generalizing offset size w with
  | zero => rfl
  | succ n ih =>
    rw [programWritable_succ]
    split_ifs
    · rw [ih (hva.trans_le (le_max_left _ _)), if_neg (not_le.2 (hva.trans_le (le_roundUp size)))]
    · exact ih hva

theorem programWritable_segment (hk : k < n)
    (hload : (header file offset k).type = ProgramHeader.LOAD)
    (hal : (header file offset k).vaddr % PGSIZE = 0)
    (hsize : size ≤ (header file offset k).vaddr)
    (hbefore : ∀ j < k, (header file offset j).type = ProgramHeader.LOAD →
      (header file offset j).vaddr + (header file offset j).memsz ≤ (header file offset k).vaddr)
    (hlo : (header file offset k).vaddr ≤ va)
    (hhi : va < (header file offset k).vaddr + (header file offset k).memsz) :
    programWritable file n offset size w va = (header file offset k).getPerms.isW := by
  induction n generalizing offset size w k with
  | zero => exact absurd hk (Nat.not_lt_zero k)
  | succ n ih =>
    rw [programWritable_succ]
    cases k with
    | zero =>
      rw [if_pos hload, programWritable_keep (hhi.trans_le (le_max_right _ _)),
        if_pos ((roundUp_le hsize hal).trans hlo)]
    | succ k =>
      have hfirst := hbefore 0 (Nat.succ_pos k)
      rw [← header_next] at hload hal hsize hfirst hlo hhi ⊢
      have hbefore' : ∀ j < k, (header file (offset + ProgramHeader.SIZE) j).type = ProgramHeader.LOAD →
          (header file (offset + ProgramHeader.SIZE) j).vaddr +
            (header file (offset + ProgramHeader.SIZE) j).memsz ≤
              (header file (offset + ProgramHeader.SIZE) k).vaddr := by
        intro j hj
        rw [header_next, header_next]
        exact hbefore (j + 1) (Nat.succ_lt_succ hj)
      split_ifs with hload'
      · exact ih (Nat.lt_of_succ_lt_succ hk) hload hal (max_le hsize (hfirst hload')) hbefore' hlo hhi
      · exact ih (Nat.lt_of_succ_lt_succ hk) hload hal hsize hbefore' hlo hhi

theorem fromBytes_congr {c : Bytes} (h : ∀ x < ProgramHeader.SIZE, b x = c x) :
    ProgramHeader.fromBytes b = ProgramHeader.fromBytes c := by
  have hfield : ∀ o k, o + k ≤ 56 → leNat b o k = leNat c o k := fun o k hle =>
    leNat_congr fun x hx => h (o + x) (show o + x < 56 by omega)
  unfold ProgramHeader.fromBytes
  rw [hfield 0 4 (by decide), hfield 4 4 (by decide), hfield 8 8 (by decide), hfield 16 8 (by decide),
    hfield 32 8 (by decide), hfield 40 8 (by decide)]

theorem isW_getPerms {ph : ProgramHeader} (h : ph.getPerms.isW = true) : ph.flags &&& 0x2 ≠ 0 := by
  intro hno
  unfold ProgramHeader.getPerms at h
  rw [if_neg (not_not.2 hno)] at h
  split_ifs at h <;> exact absurd h (by decide)

theorem Made.program_bytes {argv : List (List UInt8)} {img : ExecImage} (h : Made file argv img)
    (hv : v < top file - USERSTACK * PGSIZE) : imageBytes file argv v = (program file).2 v := by
  obtain ⟨l, sp, b, hpushed⟩ := h.pushed
  have hstack := hpushed.stack
  have harray := hpushed.array
  rw [h.size] at hstack
  rw [hpushed.bytes, blit_outside (by omega), hpushed.program v (by omega)]

/-! ## Truncated offsets -/

/-- The segments that `exec` loads lie one above the other. -/
def Increasing (file : ExecFile) : Prop :=
  ∀ j k, j < k → k < (elf file).phnum → (header file (elf file).phoff j).type = ProgramHeader.LOAD →
    (header file (elf file).phoff k).type = ProgramHeader.LOAD →
    (header file (elf file).phoff j).vaddr + (header file (elf file).phoff j).memsz ≤
      (header file (elf file).phoff k).vaddr

/-- The memory `b` with the writable addresses `w` is what the program headers of the file `data`
say. -/
structure Loaded (file : ExecFile) (data : List UInt8) (b : Bytes) (w : ℕ → Bool) : Prop where
  headers : ∀ k < (elf file).phnum, (elf file).phoff + (k + 1) * ProgramHeader.SIZE ≤ data.length ∧
    header file (elf file).phoff k =
      .fromBytes fun x => data.getD ((elf file).phoff + k * ProgramHeader.SIZE + x) 0
  bytes : ∀ k < (elf file).phnum, ∀ ph, ph = header file (elf file).phoff k → ph.type = ProgramHeader.LOAD →
    ∀ x < ph.filesz, ph.offset + x < data.length ∧ b (ph.vaddr + x) = data.getD (ph.offset + x) 0
  zero : ∀ k < (elf file).phnum, ∀ ph, ph = header file (elf file).phoff k → ph.type = ProgramHeader.LOAD →
    ∀ x, ph.filesz ≤ x → x < ph.memsz → b (ph.vaddr + x) = 0
  writable : ∀ k < (elf file).phnum, ∀ ph, ph = header file (elf file).phoff k → ph.type = ProgramHeader.LOAD →
    ∀ x < ph.memsz, w (ph.vaddr + x) = true → ph.flags &&& 0x2 ≠ 0

/-- No offset of a program header or of a segment is truncated. -/
structure OffsetsFit (file : ExecFile) : Prop where
  headers : ∀ k < (elf file).phnum, (elf file).phoff + (k + 1) * ProgramHeader.SIZE ≤ 2 ^ 32
  segments : ∀ k < (elf file).phnum, (header file (elf file).phoff k).type = ProgramHeader.LOAD →
    0 < (header file (elf file).phoff k).filesz → (header file (elf file).phoff k).offset < 2 ^ 32

theorem HeaderOk.header (h : HeaderOk file (offset + k * ProgramHeader.SIZE)) :
    ∃ buf, file ((offset + k * ProgramHeader.SIZE) % 2 ^ 32) ProgramHeader.SIZE = some buf ∧
    ProgramHeader.fromBytes buf = Exec.header file offset k := by
  obtain ⟨buf, hread, -⟩ := h
  refine ⟨buf, hread, ?_⟩
  unfold Exec.header
  rw [hread, Option.getD_some]

theorem HeaderOk.segment (h : HeaderOk file (offset + k * ProgramHeader.SIZE))
    (hload : (Exec.header file offset k).type = ProgramHeader.LOAD) :
    (Exec.header file offset k).ok = true ∧
    ∀ j < stepCount 0 (Exec.header file offset k).filesz,
      file ((Exec.header file offset k).offset % 2 ^ 32 + j * PGSIZE % 2 ^ 32)
      (min PGSIZE ((Exec.header file offset k).filesz - j * PGSIZE)) ≠ none := by
  obtain ⟨buf, hread, hseg⟩ := h
  have heq : ProgramHeader.fromBytes buf = Exec.header file offset k := by
    unfold Exec.header
    rw [hread, Option.getD_some]
  rw [heq] at hseg
  exact hseg hload

theorem ok_iff {ph : ProgramHeader} :
    ph.ok = true ↔ ph.filesz ≤ ph.memsz ∧ ph.vaddr + ph.memsz < USIZE ∧ ph.vaddr % PGSIZE = 0 := by
  unfold ProgramHeader.ok
  rw [Bool.and_eq_true, Bool.and_eq_true, decide_eq_true_iff, decide_eq_true_iff, beq_iff_eq, and_assoc]

theorem Loaded.offsetsFit {w : ℕ → Bool} (h : Loaded file data b w)
    (hshort : data.length < 2 ^ 32) : OffsetsFit file := by
  refine ⟨fun k hk => (h.headers k hk).1.trans hshort.le, fun k hk hload hpos => ?_⟩
  have hin := (h.bytes k hk _ rfl hload 0 hpos).1
  omega

section Fits

variable (h : Loadable file) (hdata : file.Reads data) (hshort : data.length < 2 ^ 32) (hinc : Increasing file)
  (hfit : OffsetsFit file) (hk : k < (elf file).phnum)
  (hload : (header file (elf file).phoff k).type = ProgramHeader.LOAD)
include h hk

include hdata hfit in
theorem headers_eq :
    (elf file).phoff + (k + 1) * ProgramHeader.SIZE ≤ data.length ∧ header file (elf file).phoff k =
      .fromBytes fun x => data.getD ((elf file).phoff + k * ProgramHeader.SIZE + x) 0 := by
  obtain ⟨buf, hread, hbuf⟩ := (h.segments k hk).header
  have htop := hfit.headers k hk
  rw [Nat.succ_mul] at htop ⊢
  have hpos : 0 < ProgramHeader.SIZE := by decide
  rw [Nat.mod_eq_of_lt (by omega)] at hread
  obtain ⟨hend, hbytes⟩ := hdata _ _ _ hpos hread
  refine ⟨by omega, ?_⟩
  rw [← hbuf]
  exact fromBytes_congr hbytes

include hload

theorem segment_ok :
    (header file (elf file).phoff k).filesz ≤ (header file (elf file).phoff k).memsz ∧
    (header file (elf file).phoff k).vaddr % PGSIZE = 0 := by
  obtain ⟨hle, -, hal⟩ := ok_iff.1 ((h.segments k hk).segment hload).1
  exact ⟨hle, hal⟩

include hdata hshort hinc hfit in
theorem program_data {x : ℕ} (hx : x < (header file (elf file).phoff k).filesz) :
    (header file (elf file).phoff k).offset + x < data.length ∧
    (program file).2 ((header file (elf file).phoff k).vaddr + x) =
      data.getD ((header file (elf file).phoff k).offset + x) 0 := by
  obtain ⟨-, hreads⟩ := (h.segments k hk).segment hload
  have hle := (segment_ok h hk hload).1
  have hsmall := hfit.segments k hk hload (by omega)
  have hlater := fun j hkj hj hloadj => hinc k j hkj hj hload hloadj
  generalize hph : header file (elf file).phoff k = ph at *
  obtain ⟨b', hb'⟩ : ∃ b', (program file).2 (ph.vaddr + x) = segmentBytes file ph.vaddr (ph.offset % 2 ^ 32)
      ph.filesz (List.range (stepCount 0 ph.filesz)) b' (ph.vaddr + x) := by
    rw [← hph] at hload ⊢
    refine programBytes_segment hk hload fun j hkj hj hloadj => .inl ?_
    rw [hph]
    exact lt_of_lt_of_le (by omega) (hlater j hkj hj hloadj)
  have hseg : ph.offset % 2 ^ 32 + ph.filesz ≤ data.length ∧ segmentBytes file ph.vaddr (ph.offset % 2 ^ 32)
      ph.filesz (List.range (stepCount 0 ph.filesz)) b' (ph.vaddr + x) =
        data.getD (ph.offset % 2 ^ 32 + x) 0 := segmentBytes_data hdata hshort hreads hx
  rw [Nat.mod_eq_of_lt hsmall] at hseg hb'
  exact ⟨by omega, hb'.trans hseg.2⟩

include hinc in
theorem program_zero {x : ℕ} (hlo : (header file (elf file).phoff k).filesz ≤ x)
    (hhi : x < (header file (elf file).phoff k).memsz) :
    (program file).2 ((header file (elf file).phoff k).vaddr + x) = 0 := by
  refine programBytes_keep fun j hj hloadj => ?_
  have hle := (segment_ok h hj hloadj).1
  rcases lt_trichotomy j k with hjk | rfl | hkj
  · have hbelow := hinc j k hjk hk hloadj hload
    omega
  · omega
  · have habove := hinc k j hkj hj hload hloadj
    omega

omit h in
theorem segment_top :
    (header file (elf file).phoff k).vaddr + (header file (elf file).phoff k).memsz ≤
    (program file).1 := programBytes_size.2 k hk hload

include hinc in
theorem program_writable {x : ℕ} (hx : x < (header file (elf file).phoff k).memsz)
    (hyes : writable file (((header file (elf file).phoff k).vaddr + x) / PGSIZE * PGSIZE) = true) :
    (header file (elf file).phoff k).flags &&& 0x2 ≠ 0 := by
  have hal := (segment_ok h hk hload).2
  have hpg : PGSIZE = 4096 := rfl
  have hpage : (header file (elf file).phoff k).vaddr ≤
      ((header file (elf file).phoff k).vaddr + x) / PGSIZE * PGSIZE := by
    rw [hpg] at hal ⊢
    omega
  have hdown := Nat.div_mul_le_self ((header file (elf file).phoff k).vaddr + x) PGSIZE
  refine isW_getPerms (Eq.trans (Eq.symm ?_) hyes)
  exact programWritable_segment hk hload hal (Nat.zero_le _)
    (fun j hj hloadj => hinc j k hj hk hloadj hload) hpage (by omega)

end Fits

end Exec

variable {A : Allocator} {tr : ℕ} {p : Fin NPROC} {s s' : MemSys} {file : ExecFile} {data : List UInt8}
  {argv : List (List UInt8)} {img : ExecImage}

theorem ImagePages.program_page {pte : Space → ℕ → Pte} {w : ℕ → Bool} {va : ℕ}
    (h : ImagePages pte (p, false) (Exec.top file) w) (hva : va < (Exec.program file).1)
    (htop : Exec.top file ≤ TRAPFRAME) :
    ∃ k, uva k = va / PGSIZE * PGSIZE ∧ (pte (p, false) (uva k)).allows false = true ∧
    (pte (p, false) (uva k)).isW = w (uva k) := by
  have hdown := Nat.div_mul_le_self va PGSIZE
  have hround := le_roundUp (Exec.program file).1
  have hend : Exec.top file - (USERSTACK + 1) * PGSIZE = roundUp (Exec.program file).1 := Nat.add_sub_cancel _ _
  have hle := Exec.le_top file
  obtain ⟨k, hk⟩ := (UserVa.mk (Nat.mul_mod_left (va / PGSIZE) PGSIZE) (by omega)).exists_uva
  obtain ⟨hv, hu, hr, hw⟩ := h.program k (by omega)
  refine ⟨k, hk, ?_, hw⟩
  unfold Pte.allows
  rw [hv, hu, hr]
  rfl

/-- **Loading an executable** with increasing segments, in every state that processes reach while no
size passes the trapframe: after a successful `exec` the process can load the memory of every
segment, and the memory is what the program headers say exactly if no offset is truncated to 32
bits. -/
theorem exec_loads (h : Reachable MemInit (Guarded (fun s l => SbrkFits s l.1) (MemStep A tr)) s)
    (hp : (s.procs p).live = true) (hrun : (Proc.exec A tr p file argv).run s = .ok (.ok img, s'))
    (hdata : file.Reads data) (hshort : data.length ≤ MAXFILE * BSIZE)
    (hinc : Exec.Increasing file) :
    ∃ b : Bytes, (∀ k < (Exec.elf file).phnum, ∀ ph, ph = Exec.header file (Exec.elf file).phoff k →
        ph.type = ProgramHeader.LOAD → ∀ x < ph.memsz,
        (userLoad A p (ph.vaddr + x)).run s' = .ok (.ok (b (ph.vaddr + x)), s')) ∧
      (Exec.Loaded file data b (fun va => (s'.entryOf p va).isW) ↔ Exec.OffsetsFit file) := by
  obtain ⟨own, pte, mem, hI⟩ := SysOk.of_reachable h
  obtain ⟨hmade, hlive, hsize, own', pte', mem', hI', hbytes, hpages⟩ :=
    wp_ok (hI.exec_wp (E := fun _ => True) hp (fun _ _ => trivial) fun _ _ => trivial) hrun img rfl
  have hbound := hI'.bounded p
  rw [hsize, hmade.size] at hbound
  rw [hmade.size] at hpages
  have hshort' : data.length < 2 ^ 32 := lt_of_le_of_lt hshort (by decide)
  have hload := hmade.loadable
  have hlow : ∀ {va}, va < (Exec.program file).1 → Exec.imageBytes file argv va = (Exec.program file).2 va := by
    intro va hva
    refine hmade.program_bytes ?_
    have hround := le_roundUp (Exec.program file).1
    have hst : USERSTACK * PGSIZE = 16384 := rfl
    have hroom : (USERSTACK + 1) * PGSIZE = 20480 := rfl
    unfold Exec.top
    omega
  refine ⟨Exec.imageBytes file argv, ?_, fun hloaded => hloaded.offsetsFit hshort', fun hfit => ⟨?_, ?_, ?_, ?_⟩⟩
  · rintro k hk ph rfl htype x hx
    have htop := Exec.segment_top hk htype
    obtain ⟨l, hl, hallows, -⟩ := hpages.program_page (lt_of_lt_of_le (Nat.add_lt_add_left hx _) htop) hbound
    rw [← hbytes]
    exact hI'.load_direct hlive hl hallows
  · exact fun k hk => Exec.headers_eq hload hdata hfit hk
  · rintro k hk ph rfl htype x hx
    have htop := Exec.segment_top hk htype
    have hle := (Exec.segment_ok hload hk htype).1
    rw [hlow (by omega)]
    exact Exec.program_data hload hdata hshort' hinc hfit hk htype hx
  · rintro k hk ph rfl htype x hlo hhi
    have htop := Exec.segment_top hk htype
    rw [hlow (by omega)]
    exact Exec.program_zero hload hinc hk htype hlo hhi
  · rintro k hk ph rfl htype x hx hyes
    have htop := Exec.segment_top hk htype
    have hva := lt_of_lt_of_le (Nat.add_lt_add_left hx (Exec.header file (Exec.elf file).phoff k).vaddr) htop
    obtain ⟨l, hl, -, hw⟩ := hpages.program_page hva hbound
    have hround := le_roundUp (Exec.program file).1
    have hlt : (Exec.header file (Exec.elf file).phoff k).vaddr + x < TRAPFRAME :=
      (hva.trans_le (hround.trans (Nat.le_add_right _ _))).trans_le hbound
    rw [hI'.entryOf_page hlt, ← hl, hw, hl] at hyes
    exact Exec.program_writable hload hinc hk htype hx hyes

/-! ## A file with one segment -/

/-- An executable with one segment of four bytes, at the offset `hi * 2^32` of the file. -/
def oneSegment (hi : UInt8) : List UInt8 :=
  [0x7F, 0x45, 0x4C, 0x46] ++ List.replicate 28 0 ++ [64, 0, 0, 0, 0, 0, 0, 0] ++ List.replicate 16 0 ++
    [1, 0, 0, 0, 0, 0, 0, 0] ++
    [1, 0, 0, 0, 4, 0, 0, 0] ++ [0, 0, 0, 0, hi, 0, 0, 0] ++ List.replicate 16 0 ++
    [4, 0, 0, 0, 0, 0, 0, 0] ++ [8, 0, 0, 0, 0, 0, 0, 0] ++ List.replicate 8 0

theorem ExecFile.reads_ofBytes (data : List UInt8) : (ExecFile.ofBytes data).Reads data := by
  intro o n b _ hread
  unfold ExecFile.ofBytes at hread
  split_ifs at hread with hle
  exact ⟨hle, fun x _ => by rw [← Option.some.inj hread]⟩

theorem oneSegment_increasing {file : ExecFile} (h : (Exec.elf file).phnum = 1) :
    Exec.Increasing file := by
  intro j k hjk hk
  omega

theorem oneSegment_run (hi b : UInt8)
    (hexec : (MemSys.start.runAll bump KERNBASE (fun s a => decide (SbrkFits s a))
      [.spawn firstProc]).map (fun s => ((s.procs firstProc).live,
        match (Proc.exec bump KERNBASE firstProc (.ofBytes (oneSegment hi)) []).run s with
        | .ok (.ok _, s') =>
          match (userLoad bump firstProc 0).run s' with
          | .ok (.ok b, _) => some b
          | _ => none
        | _ => none)) = some (true, some b)) :
    ∃ (s s' : MemSys) (img : ExecImage),
      Reachable MemInit (Guarded (fun s l => SbrkFits s l.1) (MemStep bump KERNBASE)) s ∧
      (s.procs firstProc).live = true ∧
      (Proc.exec bump KERNBASE firstProc (.ofBytes (oneSegment hi)) []).run s = .ok (.ok img, s') ∧
      ∃ t, (userLoad bump firstProc 0).run s' = .ok (.ok b, t) := by
  obtain ⟨s, hrun, hs⟩ := Option.map_eq_some_iff.1 hexec
  obtain ⟨hlive, hload⟩ := Prod.mk.inj hs
  split at hload
  · next img s' hok =>
    split at hload
    · next b' t hb =>
      cases hload
      exact ⟨s, s', img, (MemSys.runAll_reachable hrun (.init MemSys.start_init)).mono fun _ _ _ h =>
        ⟨of_decide_eq_true h.1, h.2⟩, hlive, hok, t, hb⟩
    · cases hload
  · cases hload

/-- The segment of this file is at the offset 2^32, which is behind its end; `exec` loads the first
bytes of the file instead. -/
theorem exec_truncates : ∃ (s s' : MemSys) (img : ExecImage),
    Reachable MemInit (Guarded (fun s l => SbrkFits s l.1) (MemStep bump KERNBASE)) s ∧
    (s.procs firstProc).live = true ∧ Exec.Increasing (.ofBytes (oneSegment 1)) ∧
    (Proc.exec bump KERNBASE firstProc (.ofBytes (oneSegment 1)) []).run s = .ok (.ok img, s') ∧
    (∃ t, (userLoad bump firstProc 0).run s' = .ok (.ok 0x7F, t)) ∧
    ∀ b w, ¬Exec.Loaded (.ofBytes (oneSegment 1)) (oneSegment 1) b w := by
  obtain ⟨s, s', img, hreach, hlive, hrun, hload⟩ := oneSegment_run 1 0x7F (by decide +kernel)
  refine ⟨s, s', img, hreach, hlive, oneSegment_increasing (by decide +kernel), hrun, hload, fun b w hloaded => ?_⟩
  have hfit := (hloaded.offsetsFit (by decide +kernel)).segments 0 (by decide +kernel) (by decide +kernel)
    (by decide +kernel)
  exact absurd hfit (by decide +kernel)

theorem exec_loads_one : ∃ (s s' : MemSys) (img : ExecImage) (b : Bytes),
    (Proc.exec bump KERNBASE firstProc (.ofBytes (oneSegment 0)) []).run s = .ok (.ok img, s') ∧
    Exec.Loaded (.ofBytes (oneSegment 0)) (oneSegment 0) b fun va =>
      (s'.entryOf firstProc va).isW := by
  obtain ⟨s, s', img, hreach, hlive, hrun, -⟩ := oneSegment_run 0 0x7F (by decide +kernel)
  have hone : (Exec.elf (.ofBytes (oneSegment 0))).phnum = 1 := by decide +kernel
  obtain ⟨b, -, hiff⟩ := exec_loads hreach hlive hrun (ExecFile.reads_ofBytes _) (by decide +kernel)
    (oneSegment_increasing hone)
  refine ⟨s, s', img, b, hrun, hiff.2 ⟨fun k hk => ?_, fun k hk _ _ => ?_⟩⟩
  · rw [hone, Nat.lt_one_iff] at hk
    subst hk
    decide +kernel
  · rw [hone, Nat.lt_one_iff] at hk
    subst hk
    decide +kernel

end Octopos
