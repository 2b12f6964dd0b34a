import Mathlib.Logic.Function.Basic
import Mathlib.Data.Fintype.Basic

/-!
# Blocks and the byte images of typed values

`block_dev.rs` consumes a device that reads and writes whole blocks by index. Every typed
access of `block_cache.rs` (`get_ref`, `get_mut`) reads or rewrites the image of one `Sized`
value: the bytes `[offset, offset + size_of::<T>())` of one block. `Block.slice` is that image
and `Block.write` replaces it; the lemmas below are the whole interface that the cache, the
bitmap and the inode layer use, so none of them unfolds a block.
-/

set_option autoImplicit false
set_option relaxedAutoImplicit false

namespace Rcore.EasyFs

/-- Modelled from the spec: `BLOCK_SZ` is declared in the crate root, which is absent; the spec
fixes blocks of 512 bytes. -/
def blockSz : Nat := 512

/-- One block, `[u8; BLOCK_SZ]`. -/
def Block : Type := Fin blockSz → UInt8

instance : DecidableEq Block := inferInstanceAs (DecidableEq (Fin blockSz → UInt8))

instance : Inhabited Block := ⟨fun _ ↦ 0⟩

namespace Block

/-- Byte `j` of a block, and zero past its end. -/
def get (blk : Block) (j : Nat) : UInt8 :=
  if h : j < blockSz then blk ⟨j, h⟩ else 0

/-- The image of a value of `size` bytes stored at `offset`. -/
def slice (blk : Block) (offset size : Nat) : List UInt8 :=
  (List.range size).map fun i ↦ blk.get (offset + i)

/-- The block with the image at `offset` replaced by the first `size` bytes of `bytes`. -/
def write (blk : Block) (offset size : Nat) (bytes : List UInt8) : Block :=
  fun j ↦ if offset ≤ j.val ∧ j.val < offset + size then bytes.getD (j.val - offset) 0 else blk j

theorem ext_get {a b : Block} (h : ∀ j, a.get j = b.get j) : a = b := by
  funext j
  simpa [get, j.isLt] using h j

theorem get_of_le {blk : Block} {j : Nat} (hj : blockSz ≤ j) : blk.get j = 0 := by
  simp [get, Nat.not_lt.mpr hj]

theorem get_write (blk : Block) (offset size j : Nat) (bytes : List UInt8) :
    (blk.write offset size bytes).get j =
      if offset ≤ j ∧ j < offset + size ∧ j < blockSz then bytes.getD (j - offset) 0
      else blk.get j := by
  by_cases hj : j < blockSz
  · simp [get, write, hj]
  · simp [get, hj]

@[simp] theorem length_slice (blk : Block) (offset size : Nat) :
    (blk.slice offset size).length = size := by
  simp [slice]

theorem getD_slice (blk : Block) (offset size i : Nat) :
    (blk.slice offset size).getD i 0 = if i < size then blk.get (offset + i) else 0 := by
  by_cases hi : i < size
  · simp [slice, hi]
  · have : (List.range size)[i]? = none := List.getElem?_eq_none (by simpa using Nat.not_lt.mp hi)
    simp [slice, hi, this]

/-- Reading back the image just written. -/
theorem slice_write_self (blk : Block) {offset size : Nat} (bytes : List UInt8)
    (h : offset + size ≤ blockSz) (hlen : bytes.length = size) :
    (blk.write offset size bytes).slice offset size = bytes := by
  apply List.ext_getElem (by simp [hlen])
  intro i hi _
  simp only [length_slice] at hi
  simp only [slice, List.getElem_map, List.getElem_range, get_write]
  rw [if_pos ⟨by omega, by omega, by omega⟩]
  simp [hlen ▸ hi]

/-- An image disjoint from the written one is unchanged. -/
theorem slice_write_of_disjoint (blk : Block) {offset size offset' size' : Nat}
    (bytes : List UInt8) (h : offset' + size' ≤ offset ∨ offset + size ≤ offset') :
    (blk.write offset size bytes).slice offset' size' = blk.slice offset' size' := by
  apply List.ext_getElem (by simp)
  intro i hi _
  simp only [length_slice] at hi
  simp only [slice, List.getElem_map, List.getElem_range, get_write]
  rw [if_neg (by omega)]

/-- Writing back the image that is already there changes nothing. -/
@[simp] theorem write_slice (blk : Block) (offset size : Nat) :
    blk.write offset size (blk.slice offset size) = blk := by
  apply ext_get
  intro j
  rw [get_write]
  split_ifs with h
  · rw [getD_slice, if_pos (by omega), Nat.add_sub_cancel' h.1]
  · rfl

/-- A block is its image from offset zero over the whole block. -/
theorem eq_of_slice {a b : Block} (h : a.slice 0 blockSz = b.slice 0 blockSz) : a = b :=
  ext_get fun j ↦ by
    by_cases hj : j < blockSz
    · have hj' := congrArg (fun l ↦ List.getD l j 0) h
      simp only [getD_slice, if_pos hj, Nat.zero_add] at hj'
      exact hj'
    · rw [get_of_le (Nat.le_of_not_lt hj), get_of_le (Nat.le_of_not_lt hj)]

end Block

end Rcore.EasyFs
