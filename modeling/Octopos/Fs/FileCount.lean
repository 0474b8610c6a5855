import Octopos.Fs.FileCalls
import Octopos.Fs.Image

/-!
# Every count is right

Between system calls, the reference count of a file is the number of descriptors that refer to it,
over all processes, and a file has a type exactly if it is open. So the assertions of `File::dup`
and `File::close` hold in every system call.
-/

namespace Octopos

section Count

variable {P : Type} [DecidableEq P] {sb : SuperBlock} {p c : P} {s s' : Sys P}

theorem Sys.fds_setProc {x : FsProc} (hx : x.files = (s.procs p).files) :
    Sys.fds { s with procs := upd s.procs p x } = s.fds := by
  funext ⟨q, fd⟩
  unfold Sys.fds
  dsimp only
  by_cases hq : q = p
  · rw [hq, upd_self, hx]
  · rw [upd_of_ne hq]

variable [Fintype P]

/-- The system between two calls. -/
structure Sys.CallOk (s : Sys P) : Prop where
  files : s.FileOk 0 ∅
  idle : ∀ p, (s.procs p).use ≠ .live → ∀ fd, s.fds (p, fd) = none
  inOp : s.inOp = false

omit [DecidableEq P] in
theorem Mid.callOk (h : s.CallOk) (hp : (s.procs p).use = .live) (hs : Mid p s s' 0 ∅) :
    s'.CallOk ∧ KeepsTypes s s' := by
  refine ⟨⟨hs.files, fun q hq fd => ?_, hs.inOp.trans h.inOp⟩, hs.keeps⟩
  rw [hs.use] at hq
  have hne : q ≠ p := by
    rintro rfl
    exact hq hp
  rw [hs.others q hne]
  exact h.idle q hq fd

/-- A slot of the process table changes its use behind the work on the files. -/
theorem Mid.setUse (h : s.CallOk) (hs : Mid p s s' 0 ∅) {x : FsProc}
    (hfiles : x.files = (s'.procs p).files) (huse : x.use ≠ .live → ∀ fd, s'.fds (p, fd) = none) :
    Sys.CallOk { s' with procs := upd s'.procs p x } ∧
    KeepsTypes s { s' with procs := upd s'.procs p x } := by
  have hfds := Sys.fds_setProc hfiles
  refine ⟨⟨⟨?_, hs.files.ends⟩, fun q hq fd => ?_, hs.inOp.trans h.inOp⟩, hs.keeps⟩
  · rw [hfds]
    exact hs.files.refs
  · rw [hfds]
    by_cases hqp : q = p
    · subst hqp
      dsimp only at hq
      rw [upd_self] at hq
      exact huse hq fd
    · dsimp only at hq
      rw [upd_of_ne hqp, hs.use] at hq
      rw [hs.others q hqp]
      exact h.idle q hq fd

theorem fork_spec (h : s.CallOk) (hp : (s.procs p).use = .live) (c : P) (memory : Bool) :
    wp (fork p c memory) (fun _ s' => s'.CallOk ∧ KeepsTypes s s') IsFs s := by
  unfold fork
  refine wp_bind.2 (wp_get.2 (wp_ite (fun hc => ?_) fun _ => wp_pure.2 ⟨h, fun _ _ _ => rfl⟩))
  have hpc : p ≠ c := by
    rintro rfl
    rw [hp] at hc
    cases hc.1
  have hnone : ∀ fd, s.fds (c, fd) = none := h.idle c (by rw [hc.1]; decide)
  -- the child has the descriptors that are done
  refine wp_bind.2 (wp_mono (wp_forM (I := fun done s' => Mid c s s' 0 ∅ ∧
    ∀ fd, fd ∉ done → s'.fds (c, fd) = none) (fun done fd rest hl s' hs => ?_)
    ⟨.start h.files, fun fd _ => hnone fd⟩) (fun _ s1 hs => ?_) fun _ he => he)
  · have hfd : fd ∉ done := by
      have hnodup := List.nodup_finRange NOFILE
      rw [hl] at hnodup
      exact fun hmem => (List.nodup_append.1 hnodup).2.2 fd hmem fd List.mem_cons_self rfl
    refine wp_mono (forkFd_spec hpc hs.1 (hs.2 fd hfd)) (fun _ s2 h2 => ⟨h2.1, fun fd' hfd' => ?_⟩) fun _ he => he
    rw [List.mem_append, List.mem_singleton, not_or] at hfd'
    rw [h2.2, upd_of_ne (by simp [hfd'.2])]
    exact hs.2 fd' hfd'.1
  · refine wp_bind.2 (wp_onFs fun cwd fs => wp_bind.2 (wp_get.2 (wp_modify.2 ?_)))
    exact (hs.1.onFs fs).setUse h rfl fun hlive => absurd rfl hlive

theorem exit_spec (h : s.CallOk) :
    wp (exit sb p) (fun _ s' => s'.CallOk ∧ KeepsTypes s s') IsFs s := by
  unfold exit
  refine wp_bind.2 (wp_mono (wp_forM (I := fun done s' => Mid p s s' 0 ∅ ∧
    ∀ fd ∈ done, s'.fds (p, fd) = none) (fun done fd rest _ s' hs => ?_)
    ⟨.start h.files, fun fd hfd => absurd hfd List.not_mem_nil⟩) (fun _ s1 h1 => ?_) fun _ he => he)
  · refine wp_mono (exitFd_spec h.inOp hs.1) (fun _ s2 h2 => ⟨h2.1, fun fd' hfd' => ?_⟩) fun _ he => he
    rw [h2.2]
    by_cases hne : fd' = fd
    · rw [hne, upd_self]
    · rw [upd_of_ne (by simp [hne])]
      refine hs.2 fd' ((List.mem_append.1 hfd').resolve_right fun hmem => hne ?_)
      simpa using hmem
  · have hclosed (fd : Fin NOFILE) : s1.fds (p, fd) = none := h1.2 fd (List.mem_finRange fd)
    refine wp_bind.2 (wp_get.2 (wp_bind.2 ?_))
    refine wp_mono (withOp_same (h1.1.inOp.trans h.inOp)) (fun _ s2 hs => ?_) fun _ he => he
    refine wp_bind.2 (wp_get.2 (wp_modify.2 ((h1.1.same hs).setUse h rfl fun _ fd => ?_)))
    rw [hs.fds]
    exact hclosed fd

theorem wait_spec (h : s.CallOk) (c : P) :
    wp (wait c) (fun _ s' => s'.CallOk ∧ KeepsTypes s s') IsFs s := by
  unfold wait
  refine wp_bind.2 (wp_get.2 (wp_ite (fun hc => wp_modify.2 ?_) fun _ => ?_))
  · exact (Mid.start h.files).setUse h rfl fun _ => h.idle c (by rw [hc]; decide)
  · exact wp_pure.2 ⟨h, fun _ _ _ => rfl⟩

/-- Every call ends in a state between two calls, or stops inside of the file system. -/
theorem sysCall_spec (h : s.CallOk) (hp : (s.procs p).use = .live) (a : FsAction P) :
    wp (sysCall sb p a) (fun _ s' => s'.CallOk ∧ KeepsTypes s s') IsFs s := by
  have hfiles := h.files
  have h0 := h.inOp
  have hdone {α : Type} {m : SysM P α} (hm : wp m (fun _ s' => Mid p s s' 0 ∅) IsFs s) :
      wp (do let _ ← m) (fun _ s' => s'.CallOk ∧ KeepsTypes s s') IsFs s :=
    wp_bind.2 (wp_mono hm (fun _ _ hs => wp_pure.2 (hs.callOk h hp)) fun _ he => he)
  cases a with
  | «open» path mode => exact hdone (sysOpen_spec hfiles h0 path mode)
  | mkdir path => exact hdone (wp_bind.2 (wp_get.2 (withPath_spec hfiles h0 path _)))
  | mknod path major minor => exact hdone (wp_bind.2 (wp_get.2 (withPath_spec hfiles h0 path _)))
  | link old new =>
    refine hdone ?_
    unfold sysLink
    split
    · exact wp_pure.2 (.start hfiles)
    · split
      · exact wp_pure.2 (.start hfiles)
      · exact wp_bind.2 (wp_get.2 (withOp_spec hfiles h0 _))
  | unlink path =>
    refine hdone ?_
    unfold sysUnlink
    split
    · exact wp_pure.2 (.start hfiles)
    · exact wp_bind.2 (wp_get.2 (withOp_spec hfiles h0 _))
  | chdir path => exact hdone (sysChdir_spec hfiles h0 path)
  | pwd fuel => exact hdone (wp_bind.2 (wp_get.2 (withOp_spec hfiles h0 _)))
  | exec path mem =>
    refine wp_mono ?_ (fun _ _ hs => Mid.callOk h hp hs) fun _ he => he
    dsimp only [sysCall]
    unfold sysExec
    split
    · exact wp_pure.2 (.start hfiles)
    · refine wp_ite (fun _ => wp_bind.2 (wp_get.2 (wp_bind.2 ?_))) fun _ => wp_pure.2 (.start hfiles)
      exact wp_mono (withOp_spec hfiles h0 _) (fun _ _ hs => wp_pure.2 hs) fun _ he => he
  | pipe memory accessible => exact hdone (sysPipe_spec hfiles h0 memory accessible)
  | close fd => exact hdone (sysClose_spec hfiles h0 fd)
  | dup fd => exact hdone (sysDup_spec hfiles fd)
  | fstat fd accessible => exact hdone (withFile_spec hfiles fun f _ => File.stat_spec hfiles accessible)
  | read fd len accessible =>
    exact hdone (withFile_spec hfiles fun f hf => File.read_spec hfiles (hfiles.typed hf) len accessible)
  | write fd data len accessible =>
    exact hdone (withFile_spec hfiles fun f hf => File.writeChunk_spec hfiles h0 (hfiles.typed hf) _)
  | fork child memory => exact fork_spec h hp child memory
  | exit => exact exit_spec h
  | wait child => exact wait_spec h child

omit [DecidableEq P] in
theorem Sys.Init.callOk (h : s.Init) : s.CallOk := by
  have hfds : s.fds = fun _ => none := funext fun i => h.files i.1 i.2
  refine ⟨⟨⟨fun f => ?_, fun f => ?_, ?_⟩, ⟨fun f id b hf => ?_, fun id hid => ?_, fun f g id b hf => ?_⟩⟩,
    fun p _ fd => h.files p fd, h.idle⟩
  · rw [(h.closed f).1, hfds, uses_none]
    rfl
  · simp [(h.closed f).1, (h.closed f).2]
  · simp
  · rw [IsEnd, (h.closed f).2] at hf
    cases hf.1
  · rw [h.pipes] at hid
    cases hid
  · rw [IsEnd, (h.closed f).2] at hf
    cases hf.1

theorem callOk_reachable (h : Reachable Sys.Init (Sys.Step sb) s) : s.CallOk := by
  refine h.invariant (I := Sys.CallOk) (fun _ => Sys.Init.callOk) fun s l s' hs hstep => ?_
  obtain ⟨p, a⟩ := l
  unfold Sys.Step Sys.next at hstep
  split_ifs at hstep with hp
  cases hrun : (sysCall sb p a).run s with
  | error e =>
    rw [hrun] at hstep
    cases hstep
  | ok r =>
    rw [hrun] at hstep
    cases hstep
    exact (wp_ok (sysCall_spec hs hp a) hrun).1

/-- In every state between system calls, the count of a file is the number of its descriptors, the
file has a type exactly if it is open, and an end of a pipe is open exactly if its file is. A system
call can only panic inside of the file system, and a file that stays open stays the same file. -/
theorem file_counts (h : Reachable Sys.Init (Sys.Step sb) s) :
    (∀ f, (s.ftable f).ref = uses s.fds f) ∧
    (∀ f, (s.ftable f).type = .none ↔ (s.ftable f).ref = 0) ∧
    (∀ id < s.pipeCount,
      ((s.pipes id).readOpen = true ↔ ∃ f, IsEnd s.ftable f id false ∧ 0 < (s.ftable f).ref) ∧
      ((s.pipes id).writeOpen = true ↔ ∃ f, IsEnd s.ftable f id true ∧ 0 < (s.ftable f).ref)) ∧
    (∀ f g id b, IsEnd s.ftable f id b → IsEnd s.ftable g id b → f = g) ∧
    (∀ p fd f, s.fds (p, fd) = some f → 0 < (s.ftable f).ref ∧ (s.ftable f).type ≠ .none) ∧
    ∀ p a, (s.procs p).use = .live →
      (∀ e, (sysCall sb p a).run s = .error e → ∃ e', e = .fs e') ∧
      ∀ s', Sys.Step sb s (p, a) s' → ∀ f, 0 < (s.ftable f).ref → 0 < (s'.ftable f).ref →
        (s'.ftable f).type = (s.ftable f).type := by
  have hs := callOk_reachable h
  have htype (f : Fin NFILE) : (s.ftable f).type = .none ↔ (s.ftable f).ref = 0 := by
    rw [hs.files.refs.type f]
    simp
  have hpos {f : Fin NFILE} {id : ℕ} {b : Bool} (hf : IsEnd s.ftable f id b) : 0 < (s.ftable f).ref := by
    refine Nat.pos_of_ne_zero fun hzero => ?_
    rw [IsEnd, (htype f).2 hzero] at hf
    cases hf.1
  have hopen (id : ℕ) (hid : id < s.pipeCount) (b : Bool) : (s.pipes id).isOpen b = true ↔
      ∃ f, IsEnd s.ftable f id b ∧ 0 < (s.ftable f).ref := by
    rw [hs.files.ends.isOpen id hid b]
    exact exists_congr fun f => ⟨fun hf => ⟨hf, hpos hf⟩, fun hf => hf.1⟩
  refine ⟨fun f => by simpa using hs.files.refs.refs f, htype,
    fun id hid => ⟨hopen id hid false, hopen id hid true⟩, hs.files.ends.unique,
    fun p fd f hf => ⟨hs.files.refs.pos hf, hs.files.typed hf⟩, fun p a hp => ?_⟩
  have hcall : wp (sysCall sb p a) (fun _ s' => s'.CallOk ∧ KeepsTypes s s') IsFs s :=
    sysCall_spec hs hp a
  refine ⟨fun e he => wp_error hcall he, fun s' hstep => ?_⟩
  unfold Sys.Step Sys.next at hstep
  rw [if_pos hp] at hstep
  cases hrun : (sysCall sb p a).run s with
  | error e =>
    rw [hrun] at hstep
    cases hstep
  | ok r =>
    rw [hrun] at hstep
    cases hstep
    exact (wp_ok hcall hrun).2

end Count

/-- A process with a pipe and an open file forks, and the child closes one end of the pipe. -/
theorem file_counts_fork : ∃ s : Sys (Fin 2), Reachable Sys.Init (Sys.Step mkfsSuper) s ∧
    (s.ftable 0).ref = 1 ∧ (s.ftable 2).ref = 2 ∧ uses s.fds 2 = 2 := by
  have hrun : (([(0, .pipe true true), (0, .open (fun i => [47, 102, 0][i]?) 0), (0, .fork 1 true),
      (1, .close 0)].foldlM (Sys.next mkfsSuper) (Sys.boot mkfsFs (0 : Fin 2) ⟨0, 1⟩)).map
      fun s => ((s.ftable 0).ref, (s.ftable 2).ref)) = some (1, 2) := by decide +kernel
  obtain ⟨s, hs, hrefs⟩ := Option.map_eq_some_iff.1 hrun
  have hreach : Reachable Sys.Init (Sys.Step mkfsSuper) s := .foldlM hs (.init (Sys.init_boot ..))
  rw [Prod.mk.injEq] at hrefs
  exact ⟨s, hreach, hrefs.1, hrefs.2, by rw [← (file_counts hreach).1, hrefs.2]⟩

end Octopos
