-- Heap blocks as identifiers: which ones are live, and operations that fail on a
-- block that is not.
import Mathlib.Data.Finset.Insert
import Mathlib.Data.Finset.Erase
import Mathlib.Data.Finset.Lattice.Fold
import Mathlib.Order.Lattice.Nat

namespace blocks

abbrev Block := Nat

structure Heap where
  live : Finset Block
  mallocs : Nat

/-- The block of each `malloc`, by the count of the ones before. It may be one that was
freed. -/
structure Allocator where
  choose : Nat → Finset Block → Block
  fresh : ∀ n live, choose n live ∉ live

/-- What a pointer points to: nothing, a block, or memory that is not of this heap. -/
inductive Pointer where
  | null
  | block (b : Block)
  | foreign
deriving DecidableEq

def Heap.malloc (alloc : Allocator) (h : Heap) : Block × Heap :=
  let b := alloc.choose h.mallocs h.live
  (b, { live := insert b h.live, mallocs := h.mallocs + 1 })

def Heap.free (h : Heap) (b : Block) : Option Heap :=
  if b ∈ h.live then some { h with live := h.live.erase b } else none

/-- The heap again, after a load from the block or a store to it. -/
def Heap.use (h : Heap) (b : Block) : Option Heap := if b ∈ h.live then some h else none

def Heap.freePointer (h : Heap) : Pointer → Option Heap
  | .null => some h
  | .block b => h.free b
  | .foreign => none

def Heap.usePointer (h : Heap) : Pointer → Option Heap
  | .null => none
  | .block b => h.use b
  | .foreign => some h

variable {alloc : Allocator} {h : Heap} {b c : Block}

theorem use_live (hb : b ∈ h.live) : h.use b = some h := if_pos hb

theorem free_live (hb : b ∈ h.live) : h.free b = some { h with live := h.live.erase b } := if_pos hb

theorem malloc_live : (h.malloc alloc).1 ∈ (h.malloc alloc).2.live := Finset.mem_insert_self _ _

theorem malloc_keeps (hb : b ∈ h.live) : b ∈ (h.malloc alloc).2.live := Finset.mem_insert_of_mem hb

/-- A new block is none of the live ones. -/
theorem malloc_new (hb : b ∈ h.live) : b ≠ (h.malloc alloc).1 := by
  rintro rfl
  exact alloc.fresh h.mallocs h.live hb

/-- The block above all live ones. -/
def nextBlock : Allocator where
  choose := fun _ live => live.sup id + 1
  fresh := by
    intro _ live hmem
    have hle : live.sup id + 1 ≤ live.sup id := Finset.le_sup (f := id) hmem
    exact Nat.not_succ_le_self _ hle

end blocks
