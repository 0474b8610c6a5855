import Octopos.Fs.Directory
import Mathlib.Data.List.TakeWhile

/-!
# The directory tree

What the file system is for, above blocks: inodes of a type with a count of links, and directories
whose slots hold entries. System calls change the tree by the operations below.
-/

namespace Octopos

/-- The name that an entry keeps: at most `DIRSIZE` bytes, up to the first zero. -/
def storedName (name : Name) : Name := (name.take DIRSIZE).takeWhile (· ≠ 0)

theorem storedName_eq {name : Name} (hlen : name.length ≤ DIRSIZE) (hnul : (0 : UInt8) ∉ name) :
    storedName name = name := by
  unfold storedName
  rw [List.take_of_length_le hlen, List.takeWhile_eq_self_iff]
  intro a ha
  simp only [ne_eq, decide_not, Bool.not_eq_true', decide_eq_false_iff_not]
  rintro rfl
  exact hnul ha

/-- The entry that is kept of `e`; a slot with inode number zero is empty. -/
def DirEntry.stored (e : DirEntry) : DirEntry :=
  if e.inum = 0 then DirEntry.empty else ⟨e.inum, storedName e.name⟩

/-- The inodes and the entries of the directories. An empty slot is `DirEntry.empty`. -/
structure Tree where
  type : ℕ → InodeType
  nlink : ℕ → UInt16
  entry : ℕ → ℕ → DirEntry

namespace Tree

/-- Change slot `k` of directory `d`. -/
def setEntry (T : Tree) (d k : ℕ) (e : DirEntry) : Tree :=
  { T with entry := upd T.entry d (upd (T.entry d) k e) }

/-- Free inode `i`; its entries go with it. -/
def freeNode (T : Tree) (i : ℕ) : Tree :=
  { T with type := upd T.type i .free, entry := upd T.entry i fun _ => DirEntry.empty }

/-- Slot `k` of directory `d` names something `name`. -/
def Match (T : Tree) (d k : ℕ) (name : Name) : Prop :=
  (T.entry d k).inum ≠ 0 ∧ (T.entry d k).name = name

/-- Slot `k` is the first one of that name. -/
def First (T : Tree) (d k : ℕ) (name : Name) : Prop :=
  T.Match d k name ∧ ∀ j < k, ¬T.Match d j name

/-- The walk along a path from inode `d`, where the component before was `name`, ends at inode `e`
with the last component `n`. With `parent` it stops one component early. -/
inductive Walk (T : Tree) (parent : Bool) (e : ℕ) (n : Name) : ℕ → Name → Name → Prop
  | stop {path : Name} (hpath : Path.nextComponent path = none) (hparent : parent = false) :
    Walk T parent e n e path n
  | early {path name : Name} (hpath : Path.nextComponent path = some (n, [])) (hparent : parent = true)
    (hdir : T.type e = .directory) : Walk T parent e n e path name
  | next {d k : ℕ} {path name component rest : Name}
    (hpath : Path.nextComponent path = some (component, rest)) (hdir : T.type d = .directory)
    (hrest : ¬(parent = true ∧ rest = [])) (hfirst : T.First d k component)
    (h : Walk T parent e n (T.entry d k).inum.toNat rest component) : Walk T parent e n d path name

/-- A path leads from the directory `cwd` to inode `e` (with `parent`, to the directory of the last
component `n`). -/
def Resolves (T : Tree) (cwd : ℕ) (path : Name) (parent : Bool) (e : ℕ) (n : Name) : Prop :=
  T.Walk parent e n (if path.head? = some SLASH then ROOTINO else cwd) path []

section Walk

variable {T : Tree} {parent : Bool} {e d : ℕ} {n path name component rest : Name}

theorem walk_of_none (hpath : Path.nextComponent path = none) :
    T.Walk parent e n d path name ↔ parent = false ∧ e = d ∧ n = name := by
  constructor
  · intro h
    cases h with
    | stop _ hparent => exact ⟨hparent, rfl, rfl⟩
    | early hsome => rw [hpath] at hsome; cases hsome
    | next hsome => rw [hpath] at hsome; cases hsome
  · rintro ⟨hparent, rfl, rfl⟩
    exact .stop hpath hparent

theorem walk_of_some (hpath : Path.nextComponent path = some (component, rest)) :
    T.Walk parent e n d path name ↔ T.type d = .directory ∧
    ((parent = true ∧ rest = []) ∧ e = d ∧ n = component ∨ ¬(parent = true ∧ rest = []) ∧ ∃ k,
      T.First d k component ∧ T.Walk parent e n (T.entry d k).inum.toNat rest component) := by
  constructor
  · intro h
    cases h with
    | stop hnone => rw [hpath] at hnone; cases hnone
    | early hsome hparent hdir =>
      rw [hpath] at hsome
      obtain ⟨rfl, rfl⟩ := Prod.mk.inj (Option.some.inj hsome)
      exact ⟨hdir, Or.inl ⟨⟨hparent, rfl⟩, rfl, rfl⟩⟩
    | next hsome hdir hrest hfirst h =>
      rw [hpath] at hsome
      obtain ⟨rfl, rfl⟩ := Prod.mk.inj (Option.some.inj hsome)
      exact ⟨hdir, Or.inr ⟨hrest, _, hfirst, h⟩⟩
  · rintro ⟨hdir, ⟨⟨hparent, rfl⟩, rfl, rfl⟩ | ⟨hrest, k, hfirst, h⟩⟩
    · exact .early hpath hparent hdir
    · exact .next hpath hdir hrest hfirst h

theorem First.unique {T : Tree} {d j k : ℕ} {name : Name} (h : T.First d k name)
    (hj : T.First d j name) : k = j := by
  rcases Nat.lt_trichotomy k j with hlt | heq | hgt
  · exact absurd h.1 (hj.2 k hlt)
  · exact heq
  · exact absurd hj.1 (h.2 j hgt)

end Walk

@[simp] theorem setEntry_entry (T : Tree) (d k : ℕ) (e : DirEntry) :
    (T.setEntry d k e).entry = upd T.entry d (upd (T.entry d) k e) := rfl

end Tree

end Octopos
