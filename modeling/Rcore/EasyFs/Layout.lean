import Rcore.EasyFs.BlockIo
import Rcore.Codec
import Mathlib.Data.List.GetD

/-!
# The on-disk inode and the directory entry

`vfs.rs` uses `DiskInode`, `DirEntry` and their methods from `layout.rs`, which is absent from
the repository; they are modelled here from the spec (§4.4, §4.5) with the layout of easy-fs:
a 128-byte record of 32 words, `size`, 28 direct block ids, one indirect and one doubly
indirect index block of 128 ids each, and the type. A directory entry is 32 bytes, a name
field of 28 bytes and the inode id.

Every method that reaches blocks is a `BlockIo` computation: `getBlockId` reads the index
blocks, `readAt` and `writeAt` copy bytes block by block, `increaseSize` wires fresh blocks
into the index and `clearSize` detaches them. A closure that mutates a `&mut DiskInode`
returns the new record, which `modifyDiskInode` writes back.
-/

set_option autoImplicit false
set_option relaxedAutoImplicit false

namespace Rcore.EasyFs

/-- Modelled from the spec: `INODE_DIRECT_COUNT` of the absent `layout.rs`. -/
def inodeDirectCount : Nat := 28

/-- Modelled from the spec: `INODE_INDIRECT1_COUNT`, the ids in one index block. -/
def inodeIndirect1Count : Nat := blockSz / 4

/-- Modelled from the spec: `INDIRECT1_BOUND`. -/
def indirect1Bound : Nat := inodeDirectCount + inodeIndirect1Count

/-- Modelled from the spec: `DIRENT_SZ`, the bytes of a directory entry. -/
def direntSz : Nat := 32

/-- Modelled from the spec: the capacity of the name field of a directory entry. -/
def nameCapacity : Nat := 28

/-- Modelled from the spec: `size_of::<DiskInode>()`. -/
def diskInodeSize : Nat := 128

/-- Modelled from the spec: `DiskInodeType`. -/
inductive DiskInodeType
  | file
  | directory
  deriving DecidableEq, Repr

/-- Modelled from the spec: `DiskInode`, the 128-byte on-disk record of an inode. -/
structure DiskInode where
  size : Nat
  direct : List Nat
  indirect1 : Nat
  indirect2 : Nat
  type_ : DiskInodeType
  deriving DecidableEq, Repr

namespace DiskInode

/-- Modelled from the spec: the record as its 32 words. -/
def toWords (d : DiskInode) : List Nat :=
  d.size :: d.direct ++ [d.indirect1, d.indirect2, if d.type_ = .directory then 1 else 0]

/-- Modelled from the spec: the record stored in 32 words. -/
def ofWords (ws : List Nat) : DiskInode where
  size := ws.getD 0 0
  direct := (ws.drop 1).take inodeDirectCount
  indirect1 := ws.getD 29 0
  indirect2 := ws.getD 30 0
  type_ := if ws.getD 31 0 = 1 then .directory else .file

/-- Modelled from the spec: the record stored in the 128 bytes at its position. -/
def ofBytes (bytes : List UInt8) : DiskInode := ofWords (words 4 32 bytes)

/-- Modelled from the spec: the bytes of the record. -/
def toBytes (d : DiskInode) : List UInt8 := unwords 4 d.toWords

/-- Modelled from the spec: a record whose fields are `u32`s and whose direct array has its 28
entries. -/
def Valid (d : DiskInode) : Prop :=
  d.size < 2 ^ 32 ∧ d.direct.length = inodeDirectCount ∧ (∀ b ∈ d.direct, b < 2 ^ 32) ∧
    d.indirect1 < 2 ^ 32 ∧ d.indirect2 < 2 ^ 32

/-- Modelled from the spec: `DiskInode::initialize`. -/
def initializeAs (d : DiskInode) (type_ : DiskInodeType) : DiskInode :=
  { d with size := 0, direct := List.replicate inodeDirectCount 0, indirect1 := 0, indirect2 := 0,
           type_ }

/-- Modelled from the spec: `DiskInode::is_dir`. -/
def isDir (d : DiskInode) : Bool := d.type_ = .directory

/-- Modelled from the spec: `DiskInode::_data_blocks`. -/
def dataBlocksOf (size : Nat) : Nat := (size + blockSz - 1) / blockSz

/-- Modelled from the spec: `DiskInode::data_blocks`. -/
def dataBlocks (d : DiskInode) : Nat := dataBlocksOf d.size

/-- Modelled from the spec: `DiskInode::total_blocks`: the data blocks of `size` bytes and the index
blocks that address them. -/
def totalBlocks (size : Nat) : Nat :=
  let dataBlocks := dataBlocksOf size
  let total := dataBlocks + if dataBlocks > inodeDirectCount then 1 else 0
  if dataBlocks > indirect1Bound then
    total + 1 + (dataBlocks - indirect1Bound + inodeIndirect1Count - 1) / inodeIndirect1Count
  else total

/-- Modelled from the spec: `DiskInode::blocks_num_needed`; its assertion `new_size >= self.size`
holds at its one call, behind the early return of `Inode::increase_size`. -/
def blocksNumNeeded (d : DiskInode) (newSize : Nat) : Nat :=
  totalBlocks newSize - totalBlocks d.size

theorem toWords_lt {d : DiskInode} (h : d.Valid) : ∀ w ∈ d.toWords, w < 256 ^ 4 := by
  obtain ⟨hs, -, hd, h1, h2⟩ := h
  intro w hw
  simp only [toWords, List.cons_append, List.mem_cons, List.mem_append, List.mem_singleton,
    List.not_mem_nil, or_false] at hw
  rcases hw with rfl | hw | rfl | rfl | rfl
  · exact hs
  · exact hd w hw
  · exact h1
  · exact h2
  · split <;> decide

/-- A record reads back from its bytes. -/
theorem ofBytes_toBytes {d : DiskInode} (h : d.Valid) : ofBytes d.toBytes = d := by
  have hl : d.direct.length = 28 := h.2.1
  rw [ofBytes, toBytes, words_unwords (by simp [toWords, hl]) (toWords_lt h)]
  obtain ⟨size, direct, i1, i2, t⟩ := d
  simp only at hl
  cases t <;> simp [ofWords, toWords, inodeDirectCount, List.take_left' hl,
    List.getD_append_right, List.getElem_append_right, hl]

theorem valid_ofBytes (bytes : List UInt8) : (ofBytes bytes).Valid := by
  have hlt := words_lt 4 32 bytes
  have hget : ∀ i, (words 4 32 bytes).getD i 0 < 2 ^ 32 := fun i ↦ by
    rw [List.getD_eq_getElem?_getD]
    cases hi : (words 4 32 bytes)[i]? with
    | none => simp
    | some w => simpa using hlt w (List.getElem?_mem hi)
  refine ⟨hget 0, by simp [ofBytes, ofWords, inodeDirectCount], fun b hb ↦ hlt b ?_, hget 29,
    hget 30⟩
  exact List.mem_of_mem_drop (List.mem_of_mem_take hb)

theorem valid_initializeAs (d : DiskInode) (type_ : DiskInodeType) :
    (d.initializeAs type_).Valid := by
  simp [Valid, initializeAs, inodeDirectCount]

end DiskInode

/-- Modelled from the spec: an index block, `[u32; BLOCK_SZ / 4]`. -/
def indirectBlock (bytes : List UInt8) : List Nat := words 4 inodeIndirect1Count bytes

/-- `dst[pos..pos + src.len()].copy_from_slice(src)`, and the assignments
`ids[pos + k] = src[k]` of the index loops. -/
def copyFromSlice {α : Type} (dst : List α) (pos : Nat) (src : List α) : List α :=
  dst.take pos ++ src ++ dst.drop (pos + src.length)

theorem length_copyFromSlice {α : Type} {dst src : List α} {pos : Nat} (h : pos + src.length ≤ dst.length) :
    (copyFromSlice dst pos src).length = dst.length := by
  simp [copyFromSlice]; omega

/-- Two copies into adjacent ranges are one copy of the concatenation. -/
theorem copyFromSlice_append {α : Type} {dst : List α} (a b : List α) {pos : Nat}
    (h : pos + a.length + b.length ≤ dst.length) :
    copyFromSlice (copyFromSlice dst pos a) (pos + a.length) b = copyFromSlice dst pos (a ++ b) := by
  have hL : (dst.take pos ++ a).length = pos + a.length := by simp; omega
  have hd : pos + a.length + b.length = (dst.take pos ++ a).length + b.length := by rw [hL]
  rw [copyFromSlice, copyFromSlice, List.take_left' hL, hd, List.drop_append, List.drop_drop,
    copyFromSlice]
  simp only [List.length_append, List.append_assoc, Nat.add_assoc]

theorem getD_copyFromSlice {α : Type} {dst src : List α} {pos : Nat}
    (h : pos + src.length ≤ dst.length) (j : Nat) (x : α) :
    (copyFromSlice dst pos src).getD j x =
      if pos ≤ j ∧ j < pos + src.length then src.getD (j - pos) x else dst.getD j x := by
  have hp : (dst.take pos).length = pos := by simp; omega
  simp only [copyFromSlice, List.getD_eq_getElem?_getD]
  split_ifs with hj
  · rw [List.getElem?_append_left (by simp; omega), List.getElem?_append_right (by omega), hp]
  · rcases Nat.lt_or_ge j pos with hj' | hj'
    · rw [List.getElem?_append_left (by simp; omega), List.getElem?_append_left (by omega), List.getElem?_take_of_lt hj']
    · rw [List.getElem?_append_right (by simp; omega), List.getElem?_drop]
      simp only [List.length_append, hp]
      congr 2; omega

/-- The message of an index past the end of an array of `len` elements. -/
def indexOutOfBoundsMsg (len index : Nat) : String :=
  "index out of bounds: the len is " ++ toString len ++ " but the index is " ++ toString index

namespace DiskInode

/-! ### Block lookup and byte access -/

/-- Modelled from the spec: `DiskInode::get_block_id`: the id of data block `innerId` through the
direct ids, the indirect index block, or the doubly indirect one. -/
def getBlockId (d : DiskInode) (innerId : Nat) : BlockIo Nat :=
  if innerId < inodeDirectCount then pure (d.direct.getD innerId 0)
  else if innerId < indirect1Bound then
    BlockIo.read d.indirect1 0 blockSz fun indirectBlock' ↦
      pure ((indirectBlock indirectBlock').getD (innerId - inodeDirectCount) 0)
  else do
    let last := innerId - indirect1Bound
    let indirect1 ← BlockIo.read d.indirect2 0 blockSz fun indirect2 ↦
      if last / inodeIndirect1Count < inodeIndirect1Count then
        pure ((indirectBlock indirect2).getD (last / inodeIndirect1Count) 0)
      else BlockIo.panic (indexOutOfBoundsMsg inodeIndirect1Count (last / inodeIndirect1Count))
    BlockIo.read indirect1 0 blockSz fun indirect1 ↦
      pure ((indirectBlock indirect1).getD (last % inodeIndirect1Count) 0)

/-- Modelled from the spec: the loop of `DiskInode::read_at`: one block per round, from `start` up
to `end_`, copying into `buf` from `readSize` on. -/
def readAtLoop (d : DiskInode) (end_ start startBlock readSize : Nat) (buf : List UInt8) :
    BlockIo (Nat × List UInt8) := do
  let endCurrentBlock := min ((start / blockSz + 1) * blockSz) end_
  let blockReadSize := endCurrentBlock - start
  let blockId ← d.getBlockId startBlock
  let src ← BlockIo.read blockId 0 blockSz fun dataBlock ↦
    pure ((dataBlock.drop (start % blockSz)).take blockReadSize)
  let buf := copyFromSlice buf readSize src
  if endCurrentBlock = end_ then pure (readSize + blockReadSize, buf)
  else d.readAtLoop end_ endCurrentBlock (startBlock + 1) (readSize + blockReadSize) buf
termination_by end_ - start
decreasing_by
  simp only [endCurrentBlock, blockSz] at *
  omega

/-- Modelled from the spec: `DiskInode::read_at`: the number of bytes read at `offset` and the
buffer they fill. -/
def readAt (d : DiskInode) (offset : Nat) (buf : List UInt8) : BlockIo (Nat × List UInt8) :=
  let end_ := min (offset + buf.length) d.size
  if offset ≥ end_ then pure (0, buf) else d.readAtLoop end_ offset (offset / blockSz) 0 buf

/-- Modelled from the spec: the loop of `DiskInode::write_at`: one block per round, from `start` up
to `end_`, copying from `buf` from `writeSize` on. -/
def writeAtLoop (d : DiskInode) (buf : List UInt8) (end_ start startBlock writeSize : Nat) :
    BlockIo Nat := do
  let endCurrentBlock := min ((start / blockSz + 1) * blockSz) end_
  let blockWriteSize := endCurrentBlock - start
  let blockId ← d.getBlockId startBlock
  BlockIo.modify blockId 0 blockSz fun dataBlock ↦
    pure (copyFromSlice dataBlock (start % blockSz) ((buf.drop writeSize).take blockWriteSize), ())
  if endCurrentBlock = end_ then pure (writeSize + blockWriteSize)
  else d.writeAtLoop buf end_ endCurrentBlock (startBlock + 1) (writeSize + blockWriteSize)
termination_by end_ - start
decreasing_by
  simp only [endCurrentBlock, blockSz] at *
  omega

/-- Modelled from the spec: the message of the assertion of `DiskInode::write_at`. -/
def writeAtMsg : String := "assertion failed: start <= end"

/-- Modelled from the spec: `DiskInode::write_at`: the number of bytes of `buf` written at `offset`,
clipped to `size`. -/
def writeAt (d : DiskInode) (offset : Nat) (buf : List UInt8) : BlockIo Nat :=
  let end_ := min (offset + buf.length) d.size
  if offset ≤ end_ then d.writeAtLoop buf end_ offset (offset / blockSz) 0
  else BlockIo.panic writeAtMsg

/-! ### Growing and clearing -/

/-- Modelled from the spec: `new_blocks.next().unwrap()`. -/
def nextBlock : List Nat → BlockIo (Nat × List Nat)
  | [] => BlockIo.panic unwrapNoneMsg
  | b :: newBlocks => pure (b, newBlocks)

/-- Modelled from the spec: the loops `while current_blocks < bound { ids[current_blocks] =
new_blocks.next().unwrap(); current_blocks += 1; }` of `DiskInode::increase_size`, over the direct
ids and over the indirect index block. -/
def fillSlots (bound : Nat) (slots : List Nat) (currentBlocks : Nat) (newBlocks : List Nat) :
    BlockIo (List Nat × Nat × List Nat) :=
  if currentBlocks < bound then do
    let (b, newBlocks) ← nextBlock newBlocks
    fillSlots bound (slots.set currentBlocks b) (currentBlocks + 1) newBlocks
  else pure (slots, currentBlocks, newBlocks)
termination_by bound - currentBlocks

/-- Modelled from the spec: the loop `while (a0 < a1) || (a0 == a1 && b0 < b1)` of
`DiskInode::increase_size` over the doubly indirect index block: a fresh second-level index block at
each `b0 == 0`, then one data block into slot `b0` of index block `a0`. -/
def fillIndirect2 (a1 b1 : Nat) (indirect2 : List Nat) (a0 b0 : Nat) (newBlocks : List Nat) :
    BlockIo (List Nat × List Nat) :=
  if a0 < a1 ∨ a0 = a1 ∧ b0 < b1 then
    if a0 < inodeIndirect1Count then
      if b0 < inodeIndirect1Count then do
        let (indirect2, newBlocks) ← if b0 = 0 then do
            let (b, newBlocks) ← nextBlock newBlocks
            pure (indirect2.set a0 b, newBlocks)
          else pure (indirect2, newBlocks)
        let newBlocks ← BlockIo.modify (indirect2.getD a0 0) 0 blockSz fun indirect1 ↦ do
          let (b, newBlocks) ← nextBlock newBlocks
          pure (unwords 4 ((indirectBlock indirect1).set b0 b), newBlocks)
        if b0 + 1 = inodeIndirect1Count then fillIndirect2 a1 b1 indirect2 (a0 + 1) 0 newBlocks
        else fillIndirect2 a1 b1 indirect2 a0 (b0 + 1) newBlocks
      else BlockIo.panic (indexOutOfBoundsMsg inodeIndirect1Count b0)
    else BlockIo.panic (indexOutOfBoundsMsg inodeIndirect1Count a0)
  else pure (indirect2, newBlocks)
termination_by a1 * inodeIndirect1Count + b1 - (a0 * inodeIndirect1Count + b0)
decreasing_by
  all_goals simp only [inodeIndirect1Count, blockSz] at *
  all_goals omega

/-- Modelled from the spec: `DiskInode::increase_size` from `// alloc indirect2` on, with
`current_blocks` and `total_blocks` counted from the first id behind the indirect index block. -/
def increaseIndirect2 (d : DiskInode) (currentBlocks totalBlocks : Nat) (newBlocks : List Nat) :
    BlockIo DiskInode :=
  if totalBlocks > inodeIndirect1Count then do
    let (d, newBlocks) ← if currentBlocks = inodeIndirect1Count then do
        let (b, newBlocks) ← nextBlock newBlocks
        pure ({ d with indirect2 := b }, newBlocks)
      else pure (d, newBlocks)
    let currentBlocks := currentBlocks - inodeIndirect1Count
    let totalBlocks := totalBlocks - inodeIndirect1Count
    BlockIo.modify d.indirect2 0 blockSz fun indirect2 ↦ do
      let (indirect2, _) ← fillIndirect2 (totalBlocks / inodeIndirect1Count)
        (totalBlocks % inodeIndirect1Count) (indirectBlock indirect2)
        (currentBlocks / inodeIndirect1Count) (currentBlocks % inodeIndirect1Count) newBlocks
      pure (unwords 4 indirect2, ())
    pure d
  else pure d

/-- Modelled from the spec: `// fill indirect1` of `DiskInode::increase_size`: the loop over the
indirect index block `indirect1`, inside its `modify`, with `current_blocks` and `total_blocks`
counted from the first id behind the direct ones. -/
def fillIndirect1 (indirect1 currentBlocks totalBlocks : Nat) (newBlocks : List Nat) :
    BlockIo (Nat × List Nat) :=
  BlockIo.modify indirect1 0 blockSz fun indirect1 ↦ do
    let (indirect1, currentBlocks, newBlocks) ← fillSlots (min totalBlocks inodeIndirect1Count)
      (indirectBlock indirect1) currentBlocks newBlocks
    pure (unwords 4 indirect1, currentBlocks, newBlocks)

/-- Modelled from the spec: `DiskInode::increase_size` from `// alloc indirect1` on, with
`current_blocks` and `total_blocks` counted from the first data block. -/
def increaseIndirect1 (d : DiskInode) (currentBlocks totalBlocks : Nat) (newBlocks : List Nat) :
    BlockIo DiskInode :=
  if totalBlocks > inodeDirectCount then do
    let (d, newBlocks) ← if currentBlocks = inodeDirectCount then do
        let (b, newBlocks) ← nextBlock newBlocks
        pure ({ d with indirect1 := b }, newBlocks)
      else pure (d, newBlocks)
    let currentBlocks := currentBlocks - inodeDirectCount
    let totalBlocks := totalBlocks - inodeDirectCount
    let filled ← fillIndirect1 d.indirect1 currentBlocks totalBlocks newBlocks
    d.increaseIndirect2 filled.1 totalBlocks filled.2
  else pure d

/-- Modelled from the spec: `DiskInode::increase_size`: set the size to `newSize` and wire the
freshly allocated `newBlocks` into the index, data and index blocks in the order the index needs
them. -/
def increaseSize (d : DiskInode) (newSize : Nat) (newBlocks : List Nat) : BlockIo DiskInode := do
  let currentBlocks := d.dataBlocks
  let d := { d with size := newSize }
  let totalBlocks := d.dataBlocks
  let (direct, currentBlocks, newBlocks) ←
    fillSlots (min totalBlocks inodeDirectCount) d.direct currentBlocks newBlocks
  { d with direct }.increaseIndirect1 currentBlocks totalBlocks newBlocks

/-- Modelled from the spec: the loops `while current_blocks < bound { v.push(ids[current_blocks]);
ids[current_blocks] = 0; current_blocks += 1; }` of `DiskInode::clear_size`; over the indirect index
block the zeroing is commented out in the code and the ids are dropped. -/
def drainSlots (bound : Nat) (slots : List Nat) (currentBlocks : Nat) (v : List Nat) :
    List Nat × List Nat :=
  if currentBlocks < bound then
    drainSlots bound (slots.set currentBlocks 0) (currentBlocks + 1)
      (v ++ [slots.getD currentBlocks 0])
  else (slots, v)
termination_by bound - currentBlocks

/-- Modelled from the spec: the loop `for entry in indirect2.iter_mut().take(a1)` of
`DiskInode::clear_size`: each full second-level index block, then its 128 data blocks. -/
def clearIndirect1Blocks : List Nat → List Nat → BlockIo (List Nat)
  | [], v => pure v
  | entry :: entries, v => do
    let v ← BlockIo.modify entry 0 blockSz fun indirect1 ↦
      pure (indirect1, v ++ [entry] ++ indirectBlock indirect1)
    clearIndirect1Blocks entries v

/-- Modelled from the spec: the message of the assertion of `DiskInode::clear_size`. -/
def clearSizeMsg : String :=
  "assertion failed: data_blocks <= INODE_INDIRECT1_COUNT * INODE_INDIRECT1_COUNT"

/-- Modelled from the spec: `DiskInode::clear_size`: set the size to zero and return every block the
inode addressed, data and index blocks, in index order. -/
def clearSize (d : DiskInode) : BlockIo (DiskInode × List Nat) :=
  let dataBlocks := d.dataBlocks
  let (direct, v) := drainSlots (min dataBlocks inodeDirectCount) d.direct 0 []
  let d := { d with size := 0, direct }
  if dataBlocks > inodeDirectCount then do
    let v := v ++ [d.indirect1]
    let dataBlocks := dataBlocks - inodeDirectCount
    let v ← BlockIo.modify d.indirect1 0 blockSz fun indirect1 ↦
      pure (indirect1,
        (drainSlots (min dataBlocks inodeIndirect1Count) (indirectBlock indirect1) 0 v).2)
    let d := { d with indirect1 := 0 }
    if dataBlocks > inodeIndirect1Count then
      let v := v ++ [d.indirect2]
      let dataBlocks := dataBlocks - inodeIndirect1Count
      if dataBlocks ≤ inodeIndirect1Count * inodeIndirect1Count then do
        let a1 := dataBlocks / inodeIndirect1Count
        let b1 := dataBlocks % inodeIndirect1Count
        let v ← BlockIo.modify d.indirect2 0 blockSz fun indirect2 ↦ do
          let v ← clearIndirect1Blocks ((indirectBlock indirect2).take a1) v
          let v ← if b1 > 0 then
              let last := (indirectBlock indirect2).getD a1 0
              BlockIo.modify last 0 blockSz fun indirect1 ↦
                pure (indirect1, v ++ [last] ++ (indirectBlock indirect1).take b1)
            else pure v
          pure (indirect2, v)
        pure ({ d with indirect2 := 0 }, v)
      else BlockIo.panic clearSizeMsg
    else pure (d, v)
  else pure (d, v)

end DiskInode

/-- Modelled from the spec: `DirEntry`, a name field and an inode id. -/
structure DirEntry where
  name : List UInt8
  inodeId : Nat
  deriving DecidableEq, Repr

namespace DirEntry

/-- Modelled from the spec: `DirEntry::empty`. -/
def empty : DirEntry := ⟨List.replicate nameCapacity 0, 0⟩

/-- Modelled from the spec: `DirEntry::new`; the name is truncated to the name field and
padded with zeros. -/
def new (name : List UInt8) (inodeId : Nat) : DirEntry :=
  ⟨(name.take nameCapacity) ++ List.replicate (nameCapacity - name.length) 0, inodeId⟩

/-- Modelled from the spec: `DirEntry::as_bytes`. -/
def asBytes (e : DirEntry) : List UInt8 := e.name ++ leBytes 4 e.inodeId

/-- Modelled from the spec: a `DirEntry` read from its 32 bytes. -/
def ofBytes (bytes : List UInt8) : DirEntry :=
  ⟨bytes.take nameCapacity, leValue ((bytes.drop nameCapacity).take 4)⟩

/-- Modelled from the spec: `DirEntry::name`, the name field up to its first zero byte. -/
def nameOf (e : DirEntry) : List UInt8 := e.name.takeWhile (· != 0)

@[simp] theorem length_name_new (name : List UInt8) (inodeId : Nat) :
    (new name inodeId).name.length = nameCapacity := by
  simp [new]; omega

theorem length_asBytes {e : DirEntry} (h : e.name.length = nameCapacity) :
    e.asBytes.length = direntSz := by
  simp [asBytes, h, nameCapacity, direntSz]

theorem ofBytes_asBytes {e : DirEntry} (h : e.name.length = nameCapacity) (hid : e.inodeId < 2 ^ 32) :
    ofBytes e.asBytes = e := by
  obtain ⟨name, id⟩ := e
  simp only at h hid
  simp only [ofBytes, asBytes, mk.injEq]
  refine ⟨List.take_left' h, ?_⟩
  rw [List.drop_left' h, List.take_of_length_le (by simp), leValue_leBytes, Nat.mod_eq_of_lt (by simpa using hid)]

/-- A name of at most 28 bytes and no zero byte is the name of its record. -/
theorem nameOf_new {name : List UInt8} (hlen : name.length ≤ nameCapacity) (hz : ∀ b ∈ name, b ≠ 0)
    (inodeId : Nat) : (new name inodeId).nameOf = name := by
  rw [nameOf, new, List.take_of_length_le hlen, List.takeWhile_append_of_pos (by simpa using hz)]
  cases nameCapacity - name.length <;> simp [List.replicate_succ]

theorem length_name_ofBytes {bytes : List UInt8} (h : direntSz ≤ bytes.length) :
    (ofBytes bytes).name.length = nameCapacity := by
  simp [ofBytes, direntSz, nameCapacity] at h ⊢; omega

theorem inodeId_ofBytes_lt (bytes : List UInt8) : (ofBytes bytes).inodeId < 2 ^ 32 :=
  calc _ < 256 ^ ((bytes.drop nameCapacity).take 4).length := leValue_lt _
    _ ≤ 256 ^ 4 := Nat.pow_le_pow_right (by decide) (List.length_take_le _ _)
    _ = 2 ^ 32 := rfl

end DirEntry

end Rcore.EasyFs
