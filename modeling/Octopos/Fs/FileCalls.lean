import Octopos.Fs.FileRefs

/-!
# System calls and the reference counts of files

Every system call starts and ends in a state in which the references of the call are gone and every
open file has its type (`Sys.CallOk`), whatever happens on the way. The functions of the file system
itself do not touch files, so they only matter as places where the kernel may stop.
-/

namespace Octopos

section Specs

variable {P : Type} {sb : SuperBlock} {p c : P} {s s' s'' : Sys P}
  {held : Multiset (Fin NFILE)} {new : Finset (Fin NFILE)} {f : Fin NFILE} {fd : Fin NOFILE}
variable {α : Type} {x : FileSlot} {held' : Multiset (Fin NFILE)}

def Sys.fds (s : Sys P) (i : P × Fin NOFILE) : Option (Fin NFILE) := (s.procs i.1).files i.2

def IsFs (e : SysPanic) : Prop := ∃ e', e = .fs e'

theorem wp_onFs {m : FsM α} {Q : α → Sys P → Prop} (h : ∀ a fs, Q a { s with fs := fs }) :
    wp (onFs m) Q IsFs s := by
  unfold wp onFs StateT.run
  dsimp only
  rcases m s.fs with e | ⟨a, fs⟩
  · exact ⟨e, rfl⟩
  · exact h a fs

theorem wp_withOp {m : SysM P α} {Q : α → Sys P → Prop} (h0 : s.inOp = false)
    (hm : ∀ fs, wp m (fun a s' => ∀ fs', Q a { s' with fs := fs', inOp := false }) IsFs
        { s with fs := fs, inOp := true }) : wp (withOp m) Q IsFs s := by
  unfold withOp
  refine wp_bind.2 (wp_get.2 ?_)
  rw [h0]
  refine wp_bind.2 (wp_set.2 (wp_bind.2 (wp_onFs fun _ fs => wp_bind.2 ?_)))
  refine wp_mono (hm fs) (fun a s' hQ => ?_) fun _ he => he
  exact wp_bind.2 (wp_onFs fun _ fs' => wp_bind.2 (wp_modify.2 (wp_pure.2 (hQ fs'))))

/-- Two states with the same references. -/
structure SameFiles (s s' : Sys P) : Prop where
  table : ∀ f, (s'.ftable f).ref = (s.ftable f).ref ∧ (s'.ftable f).type = (s.ftable f).type ∧
    (s'.ftable f).writeable = (s.ftable f).writeable
  fds : s'.fds = s.fds
  use : ∀ p, (s'.procs p).use = (s.procs p).use
  pipes : s'.pipes = s.pipes
  pipeCount : s'.pipeCount = s.pipeCount
  inOp : s'.inOp = s.inOp

theorem SameFiles.of_fs (fs : Fs) : SameFiles s { s with fs := fs } :=
  ⟨fun _ => ⟨rfl, rfl, rfl⟩, rfl, fun _ => rfl, rfl, rfl, rfl⟩

theorem withOp_same {m : FsM α} (h0 : s.inOp = false) :
    wp (withOp (onFs m)) (fun _ s' => SameFiles s s') IsFs s := by
  refine wp_withOp h0 fun fs => wp_onFs fun _ fs' fs'' => ?_
  exact ⟨fun _ => ⟨rfl, rfl, rfl⟩, rfl, fun _ => rfl, rfl, rfl, h0.symm⟩

/-! ## Closing -/

/-- Files were closed, and nothing else was done to them. -/
structure Closed (s s' : Sys P) : Prop where
  fds : s'.fds = s.fds
  use : ∀ p, (s'.procs p).use = (s.procs p).use
  pipeCount : s'.pipeCount = s.pipeCount
  inOp : s'.inOp = s.inOp
  ref_le : ∀ f, (s'.ftable f).ref ≤ (s.ftable f).ref
  type : ∀ f, 0 < (s'.ftable f).ref → (s'.ftable f).type = (s.ftable f).type

theorem Closed.trans (h : Closed s s') (h' : Closed s' s'') : Closed s s'' where
  fds := h'.fds.trans h.fds
  use p := (h'.use p).trans (h.use p)
  pipeCount := h'.pipeCount.trans h.pipeCount
  inOp := h'.inOp.trans h.inOp
  ref_le f := (h'.ref_le f).trans (h.ref_le f)
  type f hf := (h'.type f hf).trans (h.type f (lt_of_lt_of_le hf (h'.ref_le f)))

theorem Closed.of_same (h : SameFiles s s') : Closed s s' :=
  ⟨h.fds, h.use, h.pipeCount, h.inOp, fun f => (h.table f).1.le, fun f _ => (h.table f).2.1⟩

/-- The count of one file gets smaller, and its type is kept unless the count is zero. -/
theorem Closed.upd (x : FileSlot) (href : x.ref ≤ (s.ftable f).ref)
    (htype : 0 < x.ref → x.type = (s.ftable f).type) (fs : Fs) (pipes : ℕ → PipeEnds) :
    Closed s { s with fs := fs, pipes := pipes, ftable := Octopos.upd s.ftable f x } := by
  refine ⟨rfl, fun _ => rfl, rfl, rfl, fun g => ?_, fun g hg => ?_⟩ <;> by_cases hgf : g = f
  · subst hgf
    dsimp only
    rwa [upd_self]
  · exact (congrArg FileSlot.ref (upd_of_ne hgf)).le
  · subst hgf
    dsimp only at hg ⊢
    rw [upd_self] at hg ⊢
    exact htype hg
  · exact congrArg FileSlot.type (upd_of_ne hgf)

variable [Fintype P]

/-- The files of the system, in the middle of a call. -/
structure Sys.FileOk (s : Sys P) (held : Multiset (Fin NFILE)) (new : Finset (Fin NFILE)) :
    Prop where
  refs : RefInv s.ftable s.fds held new
  ends : PipeOk s.ftable s.pipes s.pipeCount

theorem Sys.FileOk.same (h : s.FileOk held new) (hs : SameFiles s s') : s'.FileOk held new := by
  refine ⟨?_, ?_⟩
  · rw [hs.fds]
    exact h.refs.congr fun f => ⟨(hs.table f).1, (hs.table f).2.1⟩
  · rw [hs.pipes, hs.pipeCount]
    refine h.ends.congr fun f id b => ?_
    rw [IsEnd, IsEnd, (hs.table f).2.1, (hs.table f).2.2]

/-- `File::close` gives back a reference of the call. A file that has a type must not be closed
inside of an operation. -/
theorem File.close_spec (h : s.FileOk (f ::ₘ held) new) (hop : s.inOp = false ∨ f ∈ new) :
    wp (File.close sb f) (fun _ s' => s'.FileOk held (new.erase f) ∧ Closed s s') IsFs s := by
  have hrefs := h.refs.refs f
  rw [Multiset.count_cons_self] at hrefs
  unfold File.close
  refine wp_bind.2 (wp_get.2 ?_)
  dsimp only
  rw [if_neg (by omega)]
  refine wp_ite (fun hmore => ?_) fun hlast => ?_
  · have hnew : f ∉ new := fun hnew => by
      have := h.refs.fresh f hnew
      omega
    refine wp_modify.2 ⟨⟨?_, ?_⟩, ?_⟩
    · rw [Finset.erase_eq_of_notMem hnew]
      exact h.refs.drop (by omega)
    · exact h.ends.set fun _ _ => Iff.rfl
    · exact Closed.upd { s.ftable f with ref := (s.ftable f).ref - 1 } (Nat.sub_le ..) (fun _ => rfl) s.fs s.pipes
  · have hone : (s.ftable f).ref = 1 := by omega
    have hclose := h.refs.close hone
    have hclosed (fs : Fs) (pipes : ℕ → PipeEnds) :
        Closed s { s with
          fs := fs, pipes := pipes
          ftable := upd s.ftable f { s.ftable f with ref := 0, type := .none } } :=
      Closed.upd _ (Nat.zero_le _) (fun h => absurd h (lt_irrefl 0)) fs pipes
    -- a file that is no end of a pipe
    have hends (hno : ∀ id, (s.ftable f).type ≠ .pipe id) :
        PipeOk (upd s.ftable f { s.ftable f with ref := 0, type := .none }) s.pipes s.pipeCount := by
      refine h.ends.set fun id b => iff_of_false ?_ fun hend => hno id hend.1
      rintro ⟨h, -⟩
      cases h
    refine wp_bind.2 (wp_modify.2 ?_)
    cases htype : (s.ftable f).type with
    | none => exact wp_pure.2 ⟨⟨hclose, hends (by simp [htype])⟩, hclosed s.fs s.pipes⟩
    | pipe id =>
      refine wp_modify.2 ⟨⟨hclose, ?_⟩, hclosed s.fs _⟩
      exact h.ends.close htype rfl
    | inode ip | device ip major =>
      have hidle : s.inOp = false := by
        refine hop.resolve_right fun hnew => ?_
        rw [(h.refs.type f).2 (Or.inr hnew)] at htype
        cases htype
      refine wp_mono (withOp_same hidle) (fun _ s' hs => ⟨?_, ?_⟩) fun _ he => he
      · exact Sys.FileOk.same ⟨hclose, hends (by simp [htype])⟩ hs
      · exact (hclosed s.fs s.pipes).trans (.of_same hs)

theorem Sys.FileOk.alloc (h : s.FileOk held new) (hf : (s.ftable f).ref = 0) :
    Sys.FileOk { s with ftable := upd s.ftable f { s.ftable f with ref := 1 } } (f ::ₘ held)
      (insert f new) :=
  ⟨h.refs.alloc hf, h.ends.set fun _ _ => Iff.rfl⟩

theorem Sys.FileOk.dup (h : s.FileOk held new) (hf : 0 < (s.ftable f).ref) (hnew : f ∉ new) :
    Sys.FileOk { s with ftable := upd s.ftable f { s.ftable f with ref := (s.ftable f).ref + 1 } }
      (f ::ₘ held) new :=
  ⟨h.refs.dup hf hnew, h.ends.set fun _ _ => Iff.rfl⟩

theorem Sys.FileOk.setType (h : s.FileOk held new) (hf : f ∈ new)
    (href : x.ref = (s.ftable f).ref) (hnone : x.type ≠ .none) (hpipe : ∀ id, x.type ≠ .pipe id) :
    Sys.FileOk { s with ftable := upd s.ftable f x } held (new.erase f) := by
  refine ⟨h.refs.setType hf href hnone, h.ends.set fun id b => iff_of_false ?_ ?_⟩
  · exact fun hx => hpipe id hx.1
  · rintro ⟨hx, -⟩
    rw [(h.refs.type f).2 (Or.inr hf)] at hx
    cases hx

variable [DecidableEq P]

omit [Fintype P] in
theorem Sys.fds_setFd (s : Sys P) (p : P) (fd : Fin NOFILE) (f : Option (Fin NFILE)) :
    Sys.fds { s with procs := upd s.procs p { s.procs p with files := upd (s.procs p).files fd f } } = upd s.fds (p, fd)
    f := by
  funext ⟨q, fd'⟩
  unfold Sys.fds
  dsimp only
  by_cases hq : q = p
  · subst hq
    rw [upd_self]
    by_cases hfd : fd' = fd
    · rw [hfd, upd_self]
      exact upd_self ..
    · rw [upd_of_ne (by simp [hfd])]
      exact upd_of_ne hfd
  · rw [upd_of_ne hq, upd_of_ne (by simp [hq])]

theorem Sys.FileOk.fill (h : s.FileOk (f ::ₘ held) new) (hfd : s.fds (p, fd) = none) : Sys.FileOk
    { s with procs := upd s.procs p { s.procs p with files := upd (s.procs p).files fd (some f) } } held new := by
  refine ⟨?_, h.ends⟩
  rw [Sys.fds_setFd]
  exact h.refs.fill hfd

theorem Sys.FileOk.clear (h : s.FileOk held new) (hfd : s.fds (p, fd) = some f) :
    Sys.FileOk
      { s with procs := upd s.procs p { s.procs p with files := upd (s.procs p).files fd none } }
      (f ::ₘ held) new := by
  refine ⟨?_, h.ends⟩
  rw [Sys.fds_setFd]
  exact h.refs.clear hfd

/-! ## The middle of a call -/

/-- A file that stays open keeps its type. -/
def KeepsTypes (s s' : Sys P) : Prop :=
  ∀ f, 0 < (s.ftable f).ref → 0 < (s'.ftable f).ref → (s'.ftable f).type = (s.ftable f).type

/-- The call of process `p` that started in `s` has reached `s'`. -/
structure Mid (p : P) (s s' : Sys P) (held : Multiset (Fin NFILE)) (new : Finset (Fin NFILE)) :
    Prop where
  files : s'.FileOk held new
  keeps : KeepsTypes s s'
  use : ∀ q, (s'.procs q).use = (s.procs q).use
  others : ∀ q ≠ p, ∀ fd, s'.fds (q, fd) = s.fds (q, fd)
  inOp : s'.inOp = s.inOp

section

omit [DecidableEq P]

theorem Mid.start (h : s.FileOk held new) : Mid p s s held new :=
  ⟨h, fun _ _ _ => rfl, fun _ => rfl, fun _ _ _ => rfl, rfl⟩

theorem Mid.same (h : Mid p s s' held new) (hs : SameFiles s' s'') : Mid p s s'' held new where
  files := h.files.same hs
  keeps f h1 h2 := by
    rw [(hs.table f).1] at h2
    rw [(hs.table f).2.1]
    exact h.keeps f h1 h2
  use q := (hs.use q).trans (h.use q)
  others q hq fd := by
    rw [hs.fds]
    exact h.others q hq fd
  inOp := hs.inOp.trans h.inOp

theorem Mid.onFs (h : Mid p s s' held new) (fs : Fs) : Mid p s { s' with fs := fs } held new :=
  h.same (.of_fs fs)

theorem Mid.close (h : Mid p s s' (f ::ₘ held) new) (hop : s.inOp = false ∨ f ∈ new) :
    wp (File.close sb f) (fun _ s'' => Mid p s s'' held (new.erase f) ∧
      s''.fds = s'.fds) IsFs s' := by
  rw [← h.inOp] at hop
  refine wp_mono (File.close_spec h.files hop) (fun _ s'' hs => ?_) fun _ he => he
  obtain ⟨hfiles, hclosed⟩ := hs
  refine ⟨⟨hfiles, fun g h1 h2 => ?_, fun q => (hclosed.use q).trans (h.use q), fun q hq fd => ?_,
    hclosed.inOp.trans h.inOp⟩, hclosed.fds⟩
  · rw [hclosed.type g h2]
    exact h.keeps g h1 (lt_of_lt_of_le h2 (hclosed.ref_le g))
  · rw [hclosed.fds]
    exact h.others q hq fd

theorem Mid.setFile (h : Mid p s s' held new) (hf : (s.ftable f).ref = 0)
    {new' : Finset (Fin NFILE)}
    (hfiles : Sys.FileOk { s' with ftable := upd s'.ftable f x } held' new') :
    Mid p s { s' with ftable := upd s'.ftable f x } held' new' := by
  refine ⟨hfiles, fun g h1 h2 => ?_, h.use, h.others, h.inOp⟩
  have hg : g ≠ f := by
    rintro rfl
    omega
  dsimp only at h2 ⊢
  rw [upd_of_ne hg] at h2 ⊢
  exact h.keeps g h1 h2

end

theorem Mid.setFd (h : Mid p s s' held new) {x : Option (Fin NFILE)}
    (hfiles : Sys.FileOk
        { s' with procs := upd s'.procs p { s'.procs p with files := upd (s'.procs p).files fd x } }
        held' new) :
    Mid p s
      { s' with procs := upd s'.procs p { s'.procs p with files := upd (s'.procs p).files fd x } }
      held' new := by
  refine ⟨hfiles, h.keeps, fun q => ?_, fun q hq fd' => ?_, h.inOp⟩
  · refine Eq.trans ?_ (h.use q)
    by_cases hq : q = p
    · subst hq
      dsimp only
      rw [upd_self]
    · exact congrArg FsProc.use (upd_of_ne hq)
  · rw [Sys.fds_setFd, upd_of_ne (by simp [hq])]
    exact h.others q hq fd'

omit [DecidableEq P] in
theorem Mid.alloc (h : Mid p s s' held new)
    (hopen : ∀ f, (s'.ftable f).ref = 0 → (s.ftable f).ref = 0) :
    wp File.alloc (fun r s'' => match r with
      | .ok f => Mid p s s'' (f ::ₘ held) (insert f new) ∧ (s.ftable f).ref = 0 ∧ f ∉ new ∧
        ∀ g, (s''.ftable g).ref = 0 → (s.ftable g).ref = 0
      | .error _ => Mid p s s'' held new) IsFs s' := by
  unfold File.alloc
  refine wp_bind.2 (wp_get.2 ?_)
  cases hfind : (List.finRange NFILE).find? fun f => (s'.ftable f).ref == 0 with
  | none => exact wp_pure.2 h
  | some f =>
    have hf : (s'.ftable f).ref = 0 := by simpa using List.find?_some hfind
    refine wp_bind.2 (wp_modify.2 (wp_pure.2 ⟨?_, hopen f hf, fun hnew => ?_, fun g hg => ?_⟩))
    · exact h.setFile (hopen f hf) (h.files.alloc hf)
    · have := h.files.refs.fresh f hnew
      omega
    · by_cases hgf : g = f
      · rw [hgf]
        exact hopen f hf
      · dsimp only at hg
        rw [upd_of_ne hgf] at hg
        exact hopen g hg

omit [Fintype P] in
theorem fdAlloc_eq {Q : Except SysError (Fin NOFILE) → Sys P → Prop} {E : SysPanic → Prop}
    (hok : ∀ fd, s.fds (p, fd) = none →
      Q (.ok fd) { s with
        procs := upd s.procs p { s.procs p with files := upd (s.procs p).files fd (some f) } })
    (hfull : ∀ e, Q (.error e) s) : wp (fdAlloc p f) Q E s := by
  unfold fdAlloc
  refine wp_bind.2 (wp_get.2 ?_)
  cases hfind : (List.finRange NOFILE).find? fun fd => ((s.procs p).files fd).isNone with
  | none => exact hfull _
  | some fd =>
    have hnone := List.find?_some hfind
    refine wp_bind.2 (wp_bind.2 (wp_get.2 (wp_modify.2 (hok fd ?_))))
    exact Option.isNone_iff_eq_none.1 hnone

theorem Mid.fdAlloc (h : Mid p s s' (f ::ₘ held) new) :
    wp (fdAlloc p f) (fun r s'' => match r with
      | .ok fd => Mid p s s'' held new ∧ s'.fds (p, fd) = none ∧ s''.fds = upd s'.fds (p, fd) (some f)
      | .error _ => s'' = s') IsFs s' :=
  fdAlloc_eq (fun _ hfd => ⟨h.setFd (h.files.fill hfd), hfd, Sys.fds_setFd ..⟩) fun _ => rfl

theorem Mid.clearFd (h : Mid p s s' held new) (hfd : s'.fds (p, fd) = some f) :
    wp (Octopos.setFd p fd none) (fun _ s'' => Mid p s s'' (f ::ₘ held) new ∧
      s''.fds = upd s'.fds (p, fd) none) IsFs s' :=
  wp_bind.2 (wp_get.2 (wp_modify.2 ⟨h.setFd (h.files.clear hfd), Sys.fds_setFd ..⟩))

/-! ## Opening files -/

theorem FileSlot.opened_type (mode : ℕ) (inode : Inode) (inner : InodeInner) :
    (x.opened mode inode inner).type ≠ .none ∧
    ∀ id, (x.opened mode inode inner).type ≠ .pipe id := by
  unfold FileSlot.opened
  dsimp only
  split_ifs <;> simp

theorem openFile_spec (h : s.FileOk 0 ∅) (mode : ℕ) (inode : Inode) :
    wp (openFile sb p mode inode) (fun _ s' => Mid p s s' 0 ∅) IsFs s := by
  unfold openFile
  refine wp_bind.2 (wp_onFs fun inner fs => ?_)
  have h1 : Mid p s { s with fs := fs } 0 ∅ := (Mid.start h).onFs fs
  refine wp_ite (fun _ => wp_bind.2 (wp_onFs fun _ fs' => wp_pure.2 (h1.onFs fs'))) fun _ => ?_
  refine wp_bind.2 (wp_mono (h1.alloc fun _ hf => hf) (fun r s2 h2 => ?_) fun _ he => he)
  cases r with
  | error e => exact wp_bind.2 (wp_onFs fun _ fs' => wp_pure.2 (h2.onFs fs'))
  | ok f =>
    obtain ⟨h2, hf, -, -⟩ := h2
    refine wp_bind.2 (wp_mono h2.fdAlloc (fun r s3 h3 => ?_) fun _ he => he)
    cases r with
    | error e =>
      subst h3
      refine wp_bind.2 (wp_mono (h2.close (Or.inr (by simp))) (fun _ s4 ⟨h4, _⟩ => ?_) fun _ he => he)
      rw [Finset.erase_insert (Finset.notMem_empty f)] at h4
      exact wp_bind.2 (wp_onFs fun _ fs' => wp_pure.2 (h4.onFs fs'))
    | ok fd =>
      obtain ⟨h3, -, -⟩ := h3
      refine wp_bind.2 (wp_get.2 (wp_bind.2 (wp_modify.2 ?_)))
      obtain ⟨hnone, hpipe⟩ := FileSlot.opened_type (x := s3.ftable f) mode inode inner
      have h4 := h3.setFile hf (h3.files.setType (Finset.mem_insert_self f ∅)
        (x := (s3.ftable f).opened mode inode inner) rfl hnone hpipe)
      rw [Finset.erase_insert (Finset.notMem_empty f)] at h4
      refine wp_ite (fun _ => wp_bind.2 (wp_onFs fun _ fs' => ?_)) fun _ => ?_
      · exact wp_bind.2 (wp_onFs fun _ fs' => wp_pure.2 ((h4.onFs _).onFs _))
      · exact wp_bind.2 (wp_onFs fun _ fs' => wp_pure.2 (h4.onFs _))

omit [DecidableEq P] in
theorem Mid.withOp {m : SysM P α} (h : s.FileOk 0 ∅) (h0 : s.inOp = false)
    (hm : ∀ s1 : Sys P, s1.FileOk 0 ∅ → s1.ftable = s.ftable →
      wp m (fun _ s' => Mid p s1 s' 0 ∅) IsFs s1) :
    wp (Octopos.withOp m) (fun _ s' => Mid p s s' 0 ∅) IsFs s := by
  refine wp_withOp h0 fun fs => wp_mono (hm _ ⟨h.refs, h.ends⟩ rfl) (fun _ s' hs fs' => ?_) fun _ he => he
  exact ⟨⟨hs.files.refs, hs.files.ends⟩, hs.keeps, hs.use, hs.others, h0.symm⟩

theorem sysOpen_spec (h : s.FileOk 0 ∅) (h0 : s.inOp = false) (path : ℕ → Option UInt8) (mode : ℕ) :
    wp (sysOpen sb p path mode) (fun _ s' => Mid p s s' 0 ∅) IsFs s := by
  unfold sysOpen
  split
  · exact wp_pure.2 (.start h)
  · refine wp_bind.2 (wp_get.2 (Mid.withOp h h0 fun s1 h1 _ => wp_bind.2 (wp_onFs fun r fs => ?_)))
    have h2 := (Mid.start (p := p) h1).onFs fs
    cases r with
    | error e => exact wp_pure.2 h2
    | ok inode =>
      refine wp_mono (openFile_spec h2.files mode inode) (fun _ s3 h3 => ?_) fun _ he => he
      exact ⟨h3.files, h3.keeps, h3.use, h3.others, h3.inOp⟩

section

omit [DecidableEq P]

theorem Sys.FileOk.newPipe {f0 f1 : Fin NFILE} (h : s.FileOk held {f1, f0}) (hne : f1 ≠ f0) :
    Sys.FileOk { s with
      pipes := upd s.pipes s.pipeCount ⟨true, true⟩
      pipeCount := s.pipeCount + 1
      ftable := upd
        (upd s.ftable f0
          { s.ftable f0 with type := .pipe s.pipeCount, readable := true, writeable := false })
        f1 { s.ftable f1 with type := .pipe s.pipeCount, readable := false, writeable := true } }
      held ∅ := by
  have hnone (f : Fin NFILE) (hf : f ∈ ({f1, f0} : Finset (Fin NFILE))) : (s.ftable f).type = .none :=
    (h.refs.type f).2 (Or.inr hf)
  refine ⟨?_, h.ends.alloc hne.symm (hnone f0 (by simp)) (hnone f1 (by simp)) ⟨rfl, rfl⟩ ⟨rfl, rfl⟩⟩
  have h0 := h.refs.setType (f := f0) (by simp)
    (x := { s.ftable f0 with type := .pipe s.pipeCount, readable := true, writeable := false })
    rfl (by simp)
  have herase : ({f1, f0} : Finset (Fin NFILE)).erase f0 = {f1} := by
    ext g
    simp only [Finset.mem_erase, Finset.mem_insert, Finset.mem_singleton]
    exact ⟨fun hg => hg.2.resolve_right hg.1, fun hg => ⟨hg ▸ hne, Or.inl hg⟩⟩
  rw [herase] at h0
  have h1 := h0.setType (f := f1) (by simp)
    (x := { s.ftable f1 with type := .pipe s.pipeCount, readable := false, writeable := true })
    (by rw [upd_of_ne hne]) (by simp)
  rwa [Finset.erase_singleton] at h1

theorem Pipe.alloc_spec (p : P) (h : s.FileOk 0 ∅) (h0 : s.inOp = false) (memory : Bool) :
    wp (Pipe.alloc sb memory) (fun r s' => match r with
      | .ok (f0, f1) => Mid p s s' (f1 ::ₘ f0 ::ₘ 0) ∅
      | .error _ => Mid p s s' 0 ∅) IsFs s := by
  unfold Pipe.alloc
  refine wp_bind.2 (wp_mono ((Mid.start (p := p) h).alloc fun _ hf => hf) (fun r s1 h1 => ?_) fun _ he => he)
  cases r with
  | error e => exact wp_pure.2 h1
  | ok f0 =>
    obtain ⟨h1, hf0, -, hopen⟩ := h1
    refine wp_bind.2 (wp_mono (h1.alloc hopen) (fun r s2 h2 => ?_) fun _ he => he)
    cases r with
    | error e =>
      refine wp_bind.2 (wp_mono (h2.close (Or.inr (by simp))) (fun _ s3 ⟨h3, _⟩ => ?_) fun _ he => he)
      rw [Finset.erase_insert (Finset.notMem_empty f0)] at h3
      exact wp_pure.2 h3
    | ok f1 =>
      obtain ⟨h2, hf1, hnew, -⟩ := h2
      have hne : f1 ≠ f0 := fun he => hnew (by simp [he])
      refine wp_ite (fun _ => ?_) fun _ => ?_
      · refine wp_bind.2 (wp_get.2 (wp_bind.2 (wp_set.2 (wp_pure.2 ?_))))
        refine ⟨h2.files.newPipe hne, fun g hg hg' => ?_, h2.use, h2.others, h2.inOp⟩
        have hg0 : g ≠ f0 := by
          rintro rfl
          omega
        have hg1 : g ≠ f1 := by
          rintro rfl
          omega
        dsimp only at hg' ⊢
        rw [upd_of_ne hg1, upd_of_ne hg0] at hg' ⊢
        exact h2.keeps g hg hg'
      · have hswap : f1 ::ₘ f0 ::ₘ (0 : Multiset (Fin NFILE)) = f0 ::ₘ f1 ::ₘ 0 := Multiset.cons_swap ..
        rw [hswap] at h2
        refine wp_bind.2 (wp_mono (h2.close (Or.inl h0)) (fun _ s3 ⟨h3, _⟩ => ?_) fun _ he => he)
        refine wp_bind.2 (wp_mono (h3.close (Or.inl h0)) (fun _ s4 ⟨h4, _⟩ => ?_) fun _ he => he)
        have herase : (((insert f1 (insert f0 ∅) : Finset (Fin NFILE)).erase f0).erase f1) = ∅ := by
          ext g
          simp only [Finset.mem_erase, Finset.mem_insert, Finset.notMem_empty, or_false, iff_false]
          rintro ⟨hg1, hg0, hg⟩
          exact hg.elim hg1 hg0
        rw [herase] at h4
        exact wp_pure.2 h4

theorem Mid.closeBoth {f0 f1 : Fin NFILE} (h : Mid p s s' (f0 ::ₘ f1 ::ₘ 0) ∅) (h0 : s.inOp = false)
    {e : SysError} :
    wp (do
        File.close sb f0
        File.close sb f1
        return .error e : SysM P (Except SysError ℕ))
      (fun _ s'' => Mid p s s'' 0 ∅) IsFs s' := by
  refine wp_bind.2 (wp_mono (h.close (Or.inl h0)) (fun _ s1 ⟨h1, _⟩ => ?_) fun _ he => he)
  refine wp_bind.2 (wp_mono (h1.close (Or.inl h0)) (fun _ s2 ⟨h2, _⟩ => ?_) fun _ he => he)
  exact wp_pure.2 h2

end

theorem sysPipe_spec (h : s.FileOk 0 ∅) (h0 : s.inOp = false) (memory accessible : Bool) :
    wp (sysPipe sb p memory accessible) (fun _ s' => Mid p s s' 0 ∅) IsFs s := by
  unfold sysPipe
  refine wp_bind.2 (wp_mono (Pipe.alloc_spec p h h0 memory) (fun r s1 h1 => ?_) fun _ he => he)
  cases r with
  | error e => exact wp_pure.2 h1
  | ok fs =>
    obtain ⟨read, write⟩ := fs
    dsimp only at h1
    rw [Multiset.cons_swap] at h1
    refine wp_bind.2 (wp_mono h1.fdAlloc (fun r s2 h2 => ?_) fun _ he => he)
    cases r with
    | error e =>
      subst h2
      exact h1.closeBoth h0
    | ok fd0 =>
      obtain ⟨h2, -, hfds⟩ := h2
      have hfd0 : s2.fds (p, fd0) = some read := by rw [hfds, upd_self]
      refine wp_bind.2 (wp_mono h2.fdAlloc (fun r s3 h3 => ?_) fun _ he => he)
      cases r with
      | error e =>
        subst h3
        refine wp_bind.2 (wp_mono (h2.clearFd hfd0) (fun _ s4 h4 => ?_) fun _ he => he)
        exact h4.1.closeBoth h0
      | ok fd1 =>
        obtain ⟨h3, hfd1, hfds'⟩ := h3
        refine wp_ite (fun _ => wp_pure.2 h3) fun _ => ?_
        have hne : fd0 ≠ fd1 := by
          rintro rfl
          rw [hfd0] at hfd1
          cases hfd1
        have hfd0' : s3.fds (p, fd0) = some read := by rw [hfds', upd_of_ne (by simp [hne]), hfd0]
        refine wp_bind.2 (wp_mono (h3.clearFd hfd0') (fun _ s4 h4 => ?_) fun _ he => he)
        have hfd1' : s4.fds (p, fd1) = some write := by
          rw [h4.2, upd_of_ne (by simp [hne.symm]), hfds', upd_self]
        refine wp_bind.2 (wp_mono (h4.1.clearFd hfd1') (fun _ s5 h5 => ?_) fun _ he => he)
        have h5 := h5.1
        rw [Multiset.cons_swap] at h5
        exact h5.closeBoth h0

/-! ## Calls on descriptors -/

section

omit [DecidableEq P]

theorem Sys.FileOk.typed (h : s.FileOk 0 ∅) (hfd : s.fds (p, fd) = some f) :
    (s.ftable f).type ≠ .none := by
  have hpos := h.refs.pos hfd
  rw [Ne, h.refs.type f]
  simp only [Finset.notMem_empty, or_false]
  omega

theorem Mid.dup (h : Mid p s s' held new) (hf : 0 < (s'.ftable f).ref) (hnew : f ∉ new) :
    Mid p s { s' with ftable := upd s'.ftable f { s'.ftable f with ref := (s'.ftable f).ref + 1 } }
      (f ::ₘ held) new := by
  refine ⟨h.files.dup hf hnew, fun g h1 h2 => ?_, h.use, h.others, h.inOp⟩
  by_cases hg : g = f
  · subst hg
    dsimp only
    rw [upd_self]
    exact h.keeps g h1 hf
  · dsimp only at h2 ⊢
    rw [upd_of_ne hg] at h2 ⊢
    exact h.keeps g h1 h2

theorem withFile_spec {op : Fin NFILE → SysM P (Except SysError α)} (h : s.FileOk 0 ∅)
    (hop : ∀ f, s.fds (p, fd) = some f → wp (op f) (fun _ s' => Mid p s s' 0 ∅) IsFs s) :
    wp (withFile p fd op) (fun _ s' => Mid p s s' 0 ∅) IsFs s := by
  unfold withFile
  refine wp_bind.2 (wp_get.2 ?_)
  cases hf : (s.procs p).files fd with
  | none => exact wp_pure.2 (.start h)
  | some f => exact hop f hf

end

theorem sysClose_spec (h : s.FileOk 0 ∅) (h0 : s.inOp = false) (fd : Fin NOFILE) :
    wp (sysClose sb p fd) (fun _ s' => Mid p s s' 0 ∅) IsFs s := by
  refine withFile_spec h fun f hf => ?_
  refine wp_bind.2 (wp_mono ((Mid.start h).clearFd hf) (fun _ s1 h1 => ?_) fun _ he => he)
  exact wp_bind.2 (wp_mono (h1.1.close (Or.inl h0)) (fun _ s2 h2 => wp_pure.2 h2.1) fun _ he => he)

theorem sysDup_spec (h : s.FileOk 0 ∅) (fd : Fin NOFILE) :
    wp (sysDup p fd) (fun _ s' => Mid p s s' 0 ∅) IsFs s := by
  refine withFile_spec h fun f hf => ?_
  have hpos := h.refs.pos hf
  refine wp_bind.2 (fdAlloc_eq (fun fd' hfd' => ?_) fun _ => wp_pure.2 (.start h))
  refine wp_bind.2 (wp_bind.2 (wp_get.2 ?_))
  dsimp only
  rw [if_neg (by omega)]
  refine wp_modify.2 (wp_pure.2 ?_)
  -- the count follows the descriptor; the other order ends in the same state
  have hdup := (Mid.start (p := p) h).dup hpos (Finset.notMem_empty f)
  exact hdup.setFd (hdup.files.fill hfd')

omit [DecidableEq P] [Fintype P] in
theorem SameFiles.setFile (fs : Fs)
    (hx : x.ref = (s.ftable f).ref ∧ x.type = (s.ftable f).type ∧
      x.writeable = (s.ftable f).writeable) :
    SameFiles s { s with fs := fs, ftable := upd s.ftable f x } := by
  refine ⟨fun g => ?_, rfl, fun _ => rfl, rfl, rfl, rfl⟩
  dsimp only
  by_cases hg : g = f
  · rw [hg, upd_self]
    exact hx
  · rw [upd_of_ne hg]
    exact ⟨rfl, rfl, rfl⟩

section

omit [DecidableEq P]

theorem File.read_spec (h : s.FileOk 0 ∅) (hf : (s.ftable f).type ≠ .none) (len accessible : ℕ) :
    wp (File.read sb f len accessible) (fun _ s' => Mid p s s' 0 ∅) IsFs s := by
  unfold File.read
  refine wp_bind.2 (wp_get.2 (wp_ite (fun _ => wp_pure.2 (.start h)) fun _ => ?_))
  cases htype : (s.ftable f).type with
  | none => exact absurd htype hf
  | pipe id => exact wp_pure.2 (.start h)
  | device ip major => exact wp_pure.2 (.start h)
  | inode ip =>
    refine wp_bind.2 (wp_onFs fun _ fs => wp_bind.2 (wp_onFs fun r fs' => ?_))
    cases r with
    | error e => exact wp_bind.2 (wp_onFs fun _ fs'' => wp_pure.2 ((Mid.start h).onFs fs''))
    | ok r =>
      obtain ⟨n, out⟩ := r
      refine wp_bind.2 (wp_modify.2 (wp_bind.2 (wp_onFs fun _ fs'' => wp_pure.2 ?_)))
      exact (Mid.start h).same (.setFile fs'' ⟨rfl, htype.symm, rfl⟩)

theorem File.writeChunk_spec (h : s.FileOk 0 ∅) (h0 : s.inOp = false)
    (hf : (s.ftable f).type ≠ .none) (src : Src) :
    wp (File.writeChunk sb f src) (fun _ s' => Mid p s s' 0 ∅) IsFs s := by
  unfold File.writeChunk
  refine wp_bind.2 (wp_get.2 (wp_ite (fun _ => wp_pure.2 (.start h)) fun _ => ?_))
  cases htype : (s.ftable f).type with
  | none => exact absurd htype hf
  | pipe id => exact wp_pure.2 (.start h)
  | device ip major => exact wp_pure.2 (.start h)
  | inode ip =>
    refine wp_ite (fun _ => wp_pure.2 (.start h)) fun _ => Mid.withOp h h0 fun s1 h1 ht => ?_
    refine wp_bind.2 (wp_onFs fun _ fs1 => wp_bind.2 (wp_onFs fun r fs2 => ?_))
    cases r with
    | error e => exact wp_bind.2 (wp_onFs fun _ fs3 => wp_pure.2 ((Mid.start h1).onFs fs3))
    | ok n =>
      refine wp_bind.2 (wp_modify.2 (wp_bind.2 (wp_onFs fun _ fs3 => wp_pure.2 ?_)))
      exact (Mid.start h1).same (.setFile fs3 (by rw [ht]; exact ⟨rfl, htype.symm, rfl⟩))

theorem File.stat_spec (h : s.FileOk 0 ∅) (accessible : Bool) :
    wp (File.stat sb f accessible) (fun _ s' => Mid p s s' 0 ∅) IsFs s := by
  unfold File.stat
  refine wp_bind.2 (wp_get.2 ?_)
  cases (s.ftable f).type with
  | none | pipe id => exact wp_pure.2 (.start h)
  | inode ip | device ip major =>
    refine wp_bind.2 (wp_onFs fun _ fs => wp_bind.2 (wp_onFs fun _ fs' => ?_))
    exact wp_ite (fun _ => wp_pure.2 ((Mid.start h).onFs fs')) fun _ => wp_pure.2 ((Mid.start h).onFs fs')

end

/-! ## Other calls -/

omit [DecidableEq P] in
/-- A call that fetches a path and then runs one operation of the file system. -/
theorem withPath_spec (h : s.FileOk 0 ∅) (h0 : s.inOp = false) (path : ℕ → Option UInt8)
    (op : Name → FsM (Except SysError α)) :
    wp (withPath path fun path => onFs (op path)) (fun _ s' => Mid p s s' 0 ∅) IsFs s := by
  refine Mid.withOp h h0 fun s1 h1 _ => ?_
  split
  · exact wp_pure.2 (.start h1)
  · exact wp_onFs fun _ fs => (Mid.start h1).onFs fs

omit [Fintype P] in
theorem SameFiles.setCwd (p : P) (cwd : Inode) :
    SameFiles s { s with procs := upd s.procs p { s.procs p with cwd := cwd } } := by
  refine ⟨fun _ => ⟨rfl, rfl, rfl⟩, funext fun ⟨q, fd⟩ => ?_, fun q => ?_, rfl, rfl, rfl⟩
  · unfold Sys.fds
    dsimp only
    by_cases hq : q = p
    · rw [hq, upd_self]
    · rw [upd_of_ne hq]
  · dsimp only
    by_cases hq : q = p
    · rw [hq, upd_self]
    · rw [upd_of_ne hq]

theorem sysChdir_spec (h : s.FileOk 0 ∅) (h0 : s.inOp = false) (path : ℕ → Option UInt8) :
    wp (sysChdir sb p path) (fun _ s' => Mid p s s' 0 ∅) IsFs s := by
  unfold sysChdir
  refine wp_bind.2 (wp_get.2 (wp_withOp h0 fun fs => ?_))
  have hstart (fs : Fs) : Mid p s { s with fs := fs, inOp := false } 0 ∅ :=
    (Mid.start h).same ⟨fun _ => ⟨rfl, rfl, rfl⟩, rfl, fun _ => rfl, rfl, rfl, h0.symm⟩
  split
  · exact wp_pure.2 fun fs' => hstart fs'
  · refine wp_bind.2 (wp_onFs fun r fs1 => ?_)
    cases r with
    | error e => exact wp_pure.2 fun fs' => hstart fs'
    | ok inode =>
      refine wp_bind.2 (wp_modify.2 (wp_bind.2 (wp_onFs fun _ fs2 => wp_pure.2 fun fs' => ?_)))
      exact (hstart fs').same (.setCwd p inode)

omit [DecidableEq P] in
theorem withOp_spec (h : s.FileOk 0 ∅) (h0 : s.inOp = false) (op : FsM α) :
    wp (withOp (onFs op)) (fun _ s' => Mid p s s' 0 ∅) IsFs s :=
  wp_mono (withOp_same h0) (fun _ _ hs => (Mid.start h).same hs) fun _ he => he

theorem forkFd_spec (hpc : p ≠ c) (h : Mid c s s' 0 ∅) (hfd : s'.fds (c, fd) = none) :
    wp (forkFd p c fd) (fun _ s'' => Mid c s s'' 0 ∅ ∧
      s''.fds = upd s'.fds (c, fd) (s.fds (p, fd))) IsFs s' := by
  have hparent : s.fds (p, fd) = s'.fds (p, fd) := (h.others p hpc fd).symm
  unfold forkFd
  refine wp_bind.2 (wp_get.2 ?_)
  cases hf : (s'.procs p).files fd with
  | none =>
    have hnone : s'.fds (p, fd) = none := hf
    refine wp_pure.2 ⟨h, ?_⟩
    rw [hparent, hnone, ← hfd, upd_eq_self]
  | some f =>
    have hsome : s'.fds (p, fd) = some f := hf
    have hpos := h.files.refs.pos hsome
    refine wp_bind.2 (wp_bind.2 (wp_get.2 ?_))
    rw [if_neg (by omega)]
    refine wp_modify.2 (wp_bind.2 (wp_get.2 (wp_modify.2 ?_)))
    have hdup := h.dup hpos (Finset.notMem_empty f)
    refine ⟨hdup.setFd (hdup.files.fill hfd), ?_⟩
    rw [hparent, hsome]
    exact Sys.fds_setFd ..

theorem exitFd_spec (h0 : s.inOp = false) (h : Mid p s s' 0 ∅) :
    wp (exitFd sb p fd) (fun _ s'' => Mid p s s'' 0 ∅ ∧
      s''.fds = upd s'.fds (p, fd) none) IsFs s' := by
  unfold exitFd
  refine wp_bind.2 (wp_get.2 ?_)
  cases hf : (s'.procs p).files fd with
  | none =>
    have hnone : s'.fds (p, fd) = none := hf
    refine wp_pure.2 ⟨h, ?_⟩
    rw [← hnone, upd_eq_self]
  | some f =>
    refine wp_bind.2 (wp_mono (h.clearFd (f := f) hf) (fun _ s1 h1 => ?_) fun _ he => he)
    refine wp_mono (h1.1.close (Or.inl h0)) (fun _ s2 h2 => ⟨h2.1, ?_⟩) fun _ he => he
    rw [← h1.2]
    exact h2.2

end Specs

end Octopos
