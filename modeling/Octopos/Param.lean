import Mathlib.Tactic

/-!
# Kernel parameters

The constants of `param.rs` and of the machine word that the modelled code reads.
-/

namespace Octopos

def NPROC : ℕ := 64

theorem NPROC_pos : 0 < NPROC := by decide

def NOFILE : ℕ := 16

def NFILE : ℕ := 100

def NINODE : ℕ := 50

def NDEV : ℕ := 10

/-- Device number of the file system root disk. -/
def ROOTDEV : ℕ := 1

/-- Maximum number of blocks any file system operation writes. -/
def MAXOPBLOCKS : ℕ := 10

/-- Maximum number of data blocks in the on-disk log. -/
def LOGBLOCKS : ℕ := MAXOPBLOCKS * 3

def NBUF : ℕ := MAXOPBLOCKS * 3

def MAXPATH : ℕ := 128

/-- Maximum number of arguments of `exec`. -/
def MAXARG : ℕ := 32

def USERSTACK : ℕ := 4

def PGSIZE : ℕ := 4096

/-- One past the largest `usize`. -/
def USIZE : ℕ := 2 ^ 64

end Octopos
