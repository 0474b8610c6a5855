import Octopos.Fs.Syscall
import Octopos.Lib.Count

/-!
# Reference counts of files

The reference count of a file is the number of descriptors that refer to it. In the middle of a
system call some references are in the hands of the call (`held`), and a file that was just
allocated has no type yet (`new`). `RefInv` relates the counts and the types to these two, and
`PipeOk` the open ends of the pipes to the files.
-/

namespace Octopos

section Refs

variable {ι : Type} [Fintype ι] {t t' : Fin NFILE → FileSlot} {fds fds' : ι → Option (Fin NFILE)}
  {held held' : Multiset (Fin NFILE)} {new new' : Finset (Fin NFILE)} {f : Fin NFILE} {i : ι}

/-- The counts of the files, and which of them have a type. -/
structure RefInv (t : Fin NFILE → FileSlot) (fds : ι → Option (Fin NFILE))
    (held : Multiset (Fin NFILE)) (new : Finset (Fin NFILE)) : Prop where
  refs : ∀ f, (t f).ref = uses fds f + held.count f
  type : ∀ f, (t f).type = .none ↔ (t f).ref = 0 ∨ f ∈ new
  fresh : ∀ f ∈ new, (t f).ref = 1

theorem RefInv.congr (h : RefInv t fds held new)
    (ht : ∀ f, (t' f).ref = (t f).ref ∧ (t' f).type = (t f).type) : RefInv t' fds held new := by
  refine ⟨fun f => ?_, fun f => ?_, fun f hf => ?_⟩
  · rw [(ht f).1]
    exact h.refs f
  · rw [(ht f).1, (ht f).2]
    exact h.type f
  · rw [(ht f).1]
    exact h.fresh f hf

theorem RefInv.pos (h : RefInv t fds held new) (hi : fds i = some f) : 0 < (t f).ref := by
  have huses := uses_pos hi
  rw [h.refs f]
  omega

theorem RefInv.setUses (h : RefInv t fds held new)
    (huses : ∀ g, uses fds' g + held'.count g = uses fds g + held.count g) :
    RefInv t fds' held' new :=
  ⟨fun g => by rw [huses, h.refs], h.type, h.fresh⟩

theorem RefInv.set (h : RefInv t fds held new) {x : FileSlot}
    (href : x.ref = uses fds f + held'.count f) (hheld : ∀ g ≠ f, held'.count g = held.count g)
    (htype : x.type = .none ↔ x.ref = 0 ∨ f ∈ new') (hnew : ∀ g ≠ f, g ∈ new' ↔ g ∈ new)
    (hfresh : f ∈ new' → x.ref = 1) : RefInv (upd t f x) fds held' new' := by
  refine ⟨fun g => ?_, fun g => ?_, fun g hg => ?_⟩ <;> by_cases hgf : g = f
  · rw [hgf, upd_self, href]
  · rw [upd_of_ne hgf, h.refs g, hheld g hgf]
  · rw [hgf, upd_self, htype]
  · rw [upd_of_ne hgf, h.type g, hnew g hgf]
  · rw [hgf] at hg ⊢
    rw [upd_self, hfresh hg]
  · rw [upd_of_ne hgf]
    exact h.fresh g ((hnew g hgf).1 hg)

theorem RefInv.fill [DecidableEq ι] (h : RefInv t fds (f ::ₘ held) new) (hi : fds i = none) :
    RefInv t (upd fds i (some f)) held new := by
  refine h.setUses fun g => ?_
  rw [uses_fill hi, Multiset.count_cons]
  omega

theorem RefInv.clear [DecidableEq ι] (h : RefInv t fds held new) (hi : fds i = some f) :
    RefInv t (upd fds i none) (f ::ₘ held) new := by
  refine h.setUses fun g => ?_
  rw [uses_clear hi, Multiset.count_cons]
  omega

theorem RefInv.alloc (h : RefInv t fds held new) (hf : (t f).ref = 0) :
    RefInv (upd t f { t f with ref := 1 }) fds (f ::ₘ held) (insert f new) := by
  have htype : (t f).type = .none := (h.type f).2 (Or.inl hf)
  have hrefs := h.refs f
  refine h.set ?_ (fun g hg => Multiset.count_cons_of_ne hg _) ?_ (fun g hg => ?_) fun _ => rfl
  · rw [Multiset.count_cons_self]
    dsimp only
    omega
  · simp [htype]
  · simp [hg]

theorem RefInv.dup (h : RefInv t fds held new) (hf : 0 < (t f).ref) (hnew : f ∉ new) :
    RefInv (upd t f { t f with ref := (t f).ref + 1 }) fds (f ::ₘ held) new := by
  have hrefs := h.refs f
  refine h.set ?_ (fun g hg => Multiset.count_cons_of_ne hg _) ?_ (fun g hg => Iff.rfl) fun hf => ?_
  · rw [Multiset.count_cons_self]
    dsimp only
    omega
  · simp only [h.type f, hnew, or_false]
    omega
  · exact absurd hf hnew

theorem RefInv.drop (h : RefInv t fds (f ::ₘ held) new) (hf : 1 < (t f).ref) :
    RefInv (upd t f { t f with ref := (t f).ref - 1 }) fds held new := by
  have hrefs := h.refs f
  rw [Multiset.count_cons_self] at hrefs
  have hnew : f ∉ new := fun hnew => by
    have := h.fresh f hnew
    omega
  refine h.set ?_ (fun g hg => (Multiset.count_cons_of_ne hg _).symm) ?_ (fun g hg => Iff.rfl) fun hf => ?_
  · dsimp only
    omega
  · simp only [h.type f, hnew, or_false]
    omega
  · exact absurd hf hnew

theorem RefInv.close (h : RefInv t fds (f ::ₘ held) new) (hf : (t f).ref = 1) :
    RefInv (upd t f { t f with ref := 0, type := .none }) fds held (new.erase f) := by
  have hrefs := h.refs f
  rw [Multiset.count_cons_self] at hrefs
  refine h.set ?_ (fun g hg => (Multiset.count_cons_of_ne hg _).symm) ?_ (fun g hg => ?_) ?_
  · dsimp only
    omega
  · simp
  · simp [hg]
  · simp

theorem RefInv.setType (h : RefInv t fds held new) (hf : f ∈ new) {x : FileSlot}
    (href : x.ref = (t f).ref) (hnone : x.type ≠ .none) :
    RefInv (upd t f x) fds held (new.erase f) := by
  refine h.set ?_ (fun _ _ => rfl) ?_ (fun g hg => ?_) ?_
  · rw [href, h.refs f]
  · rw [href, h.fresh f hf]
    simp [hnone]
  · simp [hg]
  · simp

end Refs

section Pipes

variable {t t' : Fin NFILE → FileSlot} {pipes : ℕ → PipeEnds} {n : ℕ} {f g : Fin NFILE} {x y : FileSlot}

/-- File `f` is the end of pipe `id` for reading or for writing. -/
def IsEnd (t : Fin NFILE → FileSlot) (f : Fin NFILE) (id : ℕ) (writeable : Bool) : Prop :=
  (t f).type = .pipe id ∧ (t f).writeable = writeable

def PipeEnds.isOpen (p : PipeEnds) (writeable : Bool) : Bool :=
  if writeable then p.writeOpen else p.readOpen

/-- An end of one of the `n` pipes is open if a file is this end, and no two files are. -/
structure PipeOk (t : Fin NFILE → FileSlot) (pipes : ℕ → PipeEnds) (n : ℕ) : Prop where
  known : ∀ f id b, IsEnd t f id b → id < n
  isOpen : ∀ id < n, ∀ b, (pipes id).isOpen b = true ↔ ∃ f, IsEnd t f id b
  unique : ∀ f g id b, IsEnd t f id b → IsEnd t g id b → f = g

theorem PipeOk.congr (h : PipeOk t pipes n) (ht : ∀ f id b, IsEnd t' f id b ↔ IsEnd t f id b) :
    PipeOk t' pipes n := by
  refine ⟨fun f id b hf => ?_, fun id hid b => ?_, fun f g id b hf hg => ?_⟩
  · exact h.known f id b ((ht f id b).1 hf)
  · simp only [ht]
    exact h.isOpen id hid b
  · exact h.unique f g id b ((ht f id b).1 hf) ((ht g id b).1 hg)

theorem isEnd_upd_of_ne {id : ℕ} {b : Bool} (hg : g ≠ f) :
    IsEnd (upd t f x) g id b ↔ IsEnd t g id b := by
  rw [IsEnd, upd_of_ne hg]
  rfl

/-- A file that is no end changes to one that is no end, or keeps its type. -/
theorem PipeOk.set (h : PipeOk t pipes n)
    (hx : ∀ id b, x.type = .pipe id ∧ x.writeable = b ↔ IsEnd t f id b) :
    PipeOk (upd t f x) pipes n := by
  refine h.congr fun g id b => ?_
  by_cases hg : g = f
  · rw [hg, IsEnd, upd_self]
    exact hx id b
  · exact isEnd_upd_of_ne hg

theorem PipeOk.close (h : PipeOk t pipes n) {id : ℕ} (hf : (t f).type = .pipe id)
    (hx : x.type = .none) :
    PipeOk (upd t f x)
      (upd pipes id (if (t f).writeable then { pipes id with writeOpen := false }
        else { pipes id with readOpen := false })) n := by
  have hself (i : ℕ) (b : Bool) : ¬IsEnd (upd t f x) f i b := by
    rw [IsEnd, upd_self, hx]
    rintro ⟨h, -⟩
    cases h
  have hback (g : Fin NFILE) (i : ℕ) (b : Bool) (hg : IsEnd (upd t f x) g i b) : g ≠ f ∧ IsEnd t g i b := by
    have hne : g ≠ f := by
      rintro rfl
      exact hself i b hg
    exact ⟨hne, (isEnd_upd_of_ne hne).1 hg⟩
  refine ⟨fun g i b hg => h.known g i b (hback g i b hg).2, fun i hi b => ?_, fun g g' i b hg hg' =>
    h.unique g g' i b (hback g i b hg).2 (hback g' i b hg').2⟩
  by_cases hend : i = id ∧ (t f).writeable = b
  · -- the end that is closed had only this file
    obtain ⟨rfl, rfl⟩ := hend
    refine iff_of_false ?_ ?_
    · rw [upd_self]
      cases (t f).writeable <;> simp [PipeEnds.isOpen]
    · rintro ⟨g, hg⟩
      obtain ⟨hne, hg⟩ := hback g i _ hg
      exact hne (h.unique g f i _ hg ⟨hf, rfl⟩)
  · have hsame : (upd pipes id (if (t f).writeable then { pipes id with writeOpen := false }
        else { pipes id with readOpen := false }) i).isOpen b = (pipes i).isOpen b := by
      by_cases hid : i = id
      · rw [hid, upd_self]
        have hb : (t f).writeable ≠ b := fun hb => hend ⟨hid, hb⟩
        revert hb
        cases (t f).writeable <;> cases b <;> simp [PipeEnds.isOpen]
      · rw [upd_of_ne hid]
    rw [hsame, h.isOpen i hi b]
    refine ⟨fun ⟨g, hg⟩ => ⟨g, (isEnd_upd_of_ne ?_).2 hg⟩, fun ⟨g, hg⟩ => ⟨g, (hback g i b hg).2⟩⟩
    rintro rfl
    have hid := hf.symm.trans hg.1
    cases hid
    exact hend ⟨rfl, hg.2⟩

theorem PipeOk.alloc (h : PipeOk t pipes n) (hfg : f ≠ g) (hf : (t f).type = .none)
    (hg : (t g).type = .none) (hx : x.type = .pipe n ∧ x.writeable = false)
    (hy : y.type = .pipe n ∧ y.writeable = true) :
    PipeOk (upd (upd t f x) g y) (upd pipes n ⟨true, true⟩) (n + 1) := by
  have hendf (i : ℕ) (b : Bool) : IsEnd (upd (upd t f x) g y) f i b ↔ i = n ∧ b = false := by
    rw [isEnd_upd_of_ne hfg, IsEnd, upd_self, hx.1, hx.2]
    constructor
    · rintro ⟨h1, h2⟩
      cases h1
      exact ⟨rfl, h2.symm⟩
    · rintro ⟨rfl, rfl⟩
      exact ⟨rfl, rfl⟩
  have hendg (i : ℕ) (b : Bool) : IsEnd (upd (upd t f x) g y) g i b ↔ i = n ∧ b = true := by
    rw [IsEnd, upd_self, hy.1, hy.2]
    constructor
    · rintro ⟨h1, h2⟩
      cases h1
      exact ⟨rfl, h2.symm⟩
    · rintro ⟨rfl, rfl⟩
      exact ⟨rfl, rfl⟩
  have hother (e : Fin NFILE) (he : e ≠ f ∧ e ≠ g) (i : ℕ) (b : Bool) :
      IsEnd (upd (upd t f x) g y) e i b ↔ IsEnd t e i b := by
    rw [isEnd_upd_of_ne he.2, isEnd_upd_of_ne he.1]
  have hold (e : Fin NFILE) (i : ℕ) (b : Bool) (he : IsEnd t e i b) : e ≠ f ∧ e ≠ g := by
    constructor
    · rintro rfl
      cases hf.symm.trans he.1
    · rintro rfl
      cases hg.symm.trans he.1
  have hcases (e : Fin NFILE) (i : ℕ) (b : Bool) (he : IsEnd (upd (upd t f x) g y) e i b) :
      (i = n ∧ e = if b then g else f) ∨ (i < n ∧ IsEnd t e i b) := by
    by_cases hef : e = f
    · rw [hef, hendf] at he
      rw [he.2]
      exact Or.inl ⟨he.1, hef⟩
    · by_cases heg : e = g
      · rw [heg, hendg] at he
        rw [he.2]
        exact Or.inl ⟨he.1, heg⟩
      · rw [hother e ⟨hef, heg⟩] at he
        exact Or.inr ⟨h.known e i b he, he⟩
  refine ⟨fun e i b he => ?_, fun i hi b => ?_, fun e e' i b he he' => ?_⟩
  · rcases hcases e i b he with ⟨rfl, -⟩ | ⟨hi, -⟩ <;> omega
  · by_cases hin : i = n
    · rw [hin, upd_self]
      refine iff_of_true (by cases b <;> rfl) ?_
      cases b
      · exact ⟨f, (hendf n false).2 ⟨rfl, rfl⟩⟩
      · exact ⟨g, (hendg n true).2 ⟨rfl, rfl⟩⟩
    · rw [upd_of_ne hin, h.isOpen i (by omega) b]
      refine ⟨fun ⟨e, he⟩ => ⟨e, (hother e (hold e i b he) i b).2 he⟩, fun ⟨e, he⟩ => ⟨e, ?_⟩⟩
      exact ((hcases e i b he).resolve_left fun h => hin h.1).2
  · rcases hcases e i b he with ⟨hi, h1⟩ | ⟨hi, h1⟩ <;> rcases hcases e' i b he' with ⟨hi', h2⟩ | ⟨hi', h2⟩
    · rw [h1, h2]
    · omega
    · omega
    · exact h.unique e e' i b h1 h2

end Pipes

end Octopos
