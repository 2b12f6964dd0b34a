import Rcore.EasyFs.InodeGrow

/-!
# The bytes of an inode

`DiskInode.byteAt d store j` is byte `j` of the data of an inode: byte `j % 512` of its data
block `j / 512`, through the index (`blockAt`). `read_at` copies a run of these bytes into the
caller's buffer (`runStore_readAt`); `write_at` copies the buffer into such a run
(`runStore_writeAt`), and what it leaves is `Written`: the index blocks untouched, the run
holding the buffer, every other byte as before, and only data blocks of the inode written.
Both loops go block by block; each is proved by a theorem that recurses as the loop does.

Writing needs the index to be duplicate free (`(d.addressed store).Nodup`): a data block is
then no index block, so the view survives the write, and no two data blocks share a block, so
a write to one leaves the bytes of the others.
-/

set_option autoImplicit false
set_option relaxedAutoImplicit false

namespace Rcore.EasyFs

/-- Bytes `[o, o + k)` of a block, read through its whole image. -/
theorem take_drop_slice (blk : Block) {o k : Nat} (h : o + k ≤ blockSz) :
    ((blk.slice 0 blockSz).drop o).take k = (List.range' o k).map blk.get := by
  apply List.ext_getElem (by simp; omega)
  intro i hi _
  simp only [List.length_take, List.length_drop, Block.length_slice] at hi
  simp [Block.slice, List.getElem_range']

/-- A block with the bytes `src` copied in at `o`, as one round of `write_at` leaves it. -/
theorem get_write_copyFromSlice (blk : Block) {o : Nat} {src : List UInt8}
    (h : o + src.length ≤ blockSz) (p : Nat) :
    (blk.write 0 blockSz (copyFromSlice (blk.slice 0 blockSz) o src)).get p =
      if o ≤ p ∧ p < o + src.length then src.getD (p - o) 0 else blk.get p := by
  rw [Block.get_write]
  by_cases hp : p < blockSz
  · rw [if_pos ⟨Nat.zero_le _, by omega, hp⟩, Nat.sub_zero,
      getD_copyFromSlice (by rw [Block.length_slice]; exact h), Block.getD_slice, if_pos hp,
      Nat.zero_add]
  · rw [if_neg (by omega), if_neg (by omega)]

namespace DiskInode

variable (d : DiskInode) (store : Nat → Block)

/-- Byte `j` of the data of an inode: byte `j % 512` of its data block `j / 512`. -/
def byteAt (j : Nat) : UInt8 := (store (d.blockAt store (j / blockSz))).get (j % blockSz)

/-- The bytes `[start, end_)` of the data of an inode. -/
def bytesIn (start end_ : Nat) : List UInt8 := (List.range' start (end_ - start)).map (d.byteAt store)

theorem length_bytesIn (start end_ : Nat) : (d.bytesIn store start end_).length = end_ - start := by
  simp [bytesIn]

theorem bytesIn_append {a b c : Nat} (hab : a ≤ b) (hbc : b ≤ c) :
    d.bytesIn store a b ++ d.bytesIn store b c = d.bytesIn store a c := by
  have h := List.range'_append_1 a (b - a) (c - b)
  rw [show a + (b - a) = b by omega, show c - b + (b - a) = c - a by omega] at h
  rw [bytesIn, bytesIn, bytesIn, ← List.map_append, h]

/-- The bytes one round of the byte loops reads: the part of one data block. -/
theorem take_drop_blockAt {start e : Nat} (h : e ≤ (start / blockSz + 1) * blockSz) :
    (((store (d.blockAt store (start / blockSz))).slice 0 blockSz).drop (start % blockSz)).take
      (e - start) = d.bytesIn store start e := by
  rw [take_drop_slice _ (by simp only [blockSz] at h ⊢; omega), bytesIn]
  refine List.ext_getElem (by simp) fun i hi _ ↦ ?_
  simp only [List.length_map, List.length_range'] at hi
  simp only [List.getElem_map, List.getElem_range', byteAt]
  have h₁ : (start + i) / blockSz = start / blockSz := by simp only [blockSz] at h ⊢; omega
  have h₂ : (start + i) % blockSz = start % blockSz + i := by simp only [blockSz] at h ⊢; omega
  simp only [Nat.one_mul, h₁, h₂]

/-- The first block boundary after `start`, or `end_`: where a round of the byte loops ends. -/
theorem lt_endCurrentBlock {start end_ : Nat} (h : start < end_) :
    start < min ((start / blockSz + 1) * blockSz) end_ := by
  simp only [blockSz] at *; omega

theorem div_endCurrentBlock {start end_ : Nat}
    (h : min ((start / blockSz + 1) * blockSz) end_ ≠ end_) :
    min ((start / blockSz + 1) * blockSz) end_ / blockSz = start / blockSz + 1 := by
  simp only [blockSz] at *; omega

/-- The loop of `DiskInode::read_at` copies the bytes `[start, end_)` into `buf` from
`readSize` on. -/
theorem runStore_readAtLoop {end_ : Nat} (hend : end_ ≤ maxDataBlocks * blockSz)
    (start readSize : Nat) (buf : List UInt8) (hs : start < end_)
    (hbuf : readSize + (end_ - start) ≤ buf.length) :
    (d.readAtLoop end_ start (start / blockSz) readSize buf).runStore store =
      .ok ((readSize + (end_ - start), copyFromSlice buf readSize (d.bytesIn store start end_)),
        store) := by
  have hsb : start / blockSz < maxDataBlocks :=
    Nat.div_lt_of_lt_mul (by rw [Nat.mul_comm]; omega)
  have he := lt_endCurrentBlock hs
  have hle : min ((start / blockSz + 1) * blockSz) end_ ≤ end_ := min_le_right _ _
  rw [readAtLoop]
  simp only [BlockIo.bind_eq, BlockIo.pure_eq]
  rw [BlockIo.runStore_bind_of_ok _ (d.runStore_getBlockId store hsb), BlockIo.runStore_bind,
    BlockIo.runStore_read _ _ _ _ _ (by omega), BlockIo.runStore_pure]
  simp only
  rw [take_drop_blockAt d store (min_le_left _ _)]
  split_ifs with h
  · rw [BlockIo.runStore_pure, h]
  · set e := min ((start / blockSz + 1) * blockSz) end_
    have hdiv : e / blockSz = start / blockSz + 1 := div_endCurrentBlock h
    have ih := runStore_readAtLoop hend e (readSize + (e - start))
      (copyFromSlice buf readSize (d.bytesIn store start e)) (lt_of_le_of_ne hle h) (by
        rw [length_copyFromSlice (by rw [length_bytesIn]; omega)]; omega)
    rw [hdiv] at ih
    have happ : copyFromSlice (copyFromSlice buf readSize (d.bytesIn store start e))
        (readSize + (d.bytesIn store start e).length) (d.bytesIn store e end_) = _ :=
      copyFromSlice_append _ _ (by simp only [length_bytesIn]; omega)
    rw [length_bytesIn] at happ
    rw [ih, happ, bytesIn_append d store he.le hle, Nat.add_assoc,
      show e - start + (end_ - e) = end_ - start by omega]
termination_by end_ - start

/-- `DiskInode::read_at`: the bytes `[offset, min(offset + buf.len(), size))` into the front
of `buf`, and their number. -/
theorem runStore_readAt (hmax : d.size ≤ maxDataBlocks * blockSz) (offset : Nat)
    (buf : List UInt8) :
    (d.readAt offset buf).runStore store =
      .ok ((min (offset + buf.length) d.size - offset,
        copyFromSlice buf 0 (d.bytesIn store offset (min (offset + buf.length) d.size))), store) := by
  rw [readAt]
  split_ifs with h
  · rw [BlockIo.pure_eq, BlockIo.runStore_pure, Nat.sub_eq_zero_of_le h, bytesIn,
      Nat.sub_eq_zero_of_le h]
    simp [copyFromSlice_nil]
  · rw [runStore_readAtLoop d store (by omega) _ _ _ (by omega) (by omega), Nat.zero_add]

section Nodup

variable {d store} {n : Nat}

/-- The slots of distinct data blocks of a duplicate-free index share no block. -/
theorem slotBlocks_disjoint (hnd : (d.blocksUpTo store n).Nodup) {i j : Nat} (hi : i < n)
    (hj : j < n) (hij : i ≠ j) : (d.slotBlocks store i).Disjoint (d.slotBlocks store j) :=
  (List.nodup_flatMap.mp hnd).2.forall (fun _ _ h ↦ h.symm) (List.mem_range.mpr hi)
    (List.mem_range.mpr hj) hij

theorem blockAt_mem_slotBlocks (i : Nat) : d.blockAt store i ∈ d.slotBlocks store i := by
  simp [slotBlocks]

theorem blockAt_injective (hnd : (d.blocksUpTo store n).Nodup) {i j : Nat} (hi : i < n)
    (hj : j < n) (h : d.blockAt store i = d.blockAt store j) : i = j := by
  by_contra hij
  exact slotBlocks_disjoint hnd hi hj hij (blockAt_mem_slotBlocks i)
    (h ▸ blockAt_mem_slotBlocks j)

/-- A data block is no index block. -/
theorem blockAt_not_mem_indexBlocksUpTo (hnd : (d.blocksUpTo store n).Nodup) {i : Nat}
    (hi : i < n) : d.blockAt store i ∉ d.indexBlocksUpTo store n := by
  intro h
  obtain ⟨j, hj, hb⟩ := List.mem_flatMap.mp h
  rw [List.mem_range] at hj
  by_cases hij : i = j
  · subst hij
    have hslot : (d.slotBlocks store i).Nodup :=
      (List.nodup_flatMap.mp hnd).1 i (List.mem_range.mpr hi)
    rw [slotBlocks, List.nodup_append] at hslot
    exact hslot.2.2 hb (List.mem_singleton_self _)
  · exact slotBlocks_disjoint hnd hi hj hij (blockAt_mem_slotBlocks i)
      (List.mem_append_left _ hb)

theorem mem_blocksUpTo_of_mem_indexBlocksUpTo {b : Nat} (h : b ∈ d.indexBlocksUpTo store n) :
    b ∈ d.blocksUpTo store n := by
  obtain ⟨j, hj, hb⟩ := List.mem_flatMap.mp h
  exact List.mem_flatMap.mpr ⟨j, hj, List.mem_append_left _ hb⟩

theorem blockAt_mem_blocksUpTo {i : Nat} (hi : i < n) : d.blockAt store i ∈ d.blocksUpTo store n :=
  List.mem_flatMap.mpr ⟨i, List.mem_range.mpr hi, blockAt_mem_slotBlocks i⟩

/-- An inode whose blocks all keep their contents keeps its list of blocks and its bytes. -/
theorem view_congr {store' : Nat → Block} (h : ∀ b ∈ d.addressed store, store' b = store b) :
    d.addressed store' = d.addressed store ∧ ∀ j < d.size, d.byteAt store' j = d.byteAt store j := by
  have hindex : ∀ b ∈ d.indexBlocksUpTo store d.dataBlocks, store' b = store b :=
    fun b hb ↦ h b (mem_blocksUpTo_of_mem_indexBlocksUpTo hb)
  refine ⟨blocksUpTo_congr hindex, fun j hj ↦ ?_⟩
  have hn : j / blockSz < d.dataBlocks := by
    simp only [dataBlocks, dataBlocksOf, blockSz] at hj ⊢; omega
  rw [byteAt, byteAt, blockAt_congr hindex hn, h _ (blockAt_mem_blocksUpTo hn)]

end Nodup

/-- What the loop of `DiskInode::write_at` leaves once it has copied `buf`, from `writeSize`
on, into the bytes `[start, end_)` of the inode, from the array `store` to `store'`: the
index blocks are untouched, those bytes hold the copy and every other byte reads as before,
and only data blocks of the inode were written. -/
structure Written (d : DiskInode) (store : Nat → Block) (buf : List UInt8)
    (start end_ writeSize : Nat) (store' : Nat → Block) : Prop where
  index : ∀ b ∈ d.indexBlocksUpTo store d.dataBlocks, store' b = store b
  bytes : ∀ j < d.size, d.byteAt store' j =
    if start ≤ j ∧ j < end_ then buf.getD (writeSize + (j - start)) 0 else d.byteAt store j
  frame : ∀ b, store' b ≠ store b → ∃ i < d.dataBlocks, b = d.blockAt store i

namespace Written

variable {d store} {buf : List UInt8} {start end_ writeSize : Nat} {store' : Nat → Block}

theorem blockAt_eq (h : Written d store buf start end_ writeSize store') {i : Nat}
    (hi : i < d.dataBlocks) : d.blockAt store' i = d.blockAt store i :=
  blockAt_congr h.index hi

theorem addressed_eq (h : Written d store buf start end_ writeSize store') :
    d.addressed store' = d.addressed store :=
  blocksUpTo_congr h.index

theorem trans {mid : Nat} {store₂ : Nat → Block}
    (h₁ : Written d store buf start mid writeSize store')
    (h₂ : Written d store' buf mid end_ (writeSize + (mid - start)) store₂)
    (hs : start ≤ mid) (he : mid ≤ end_) : Written d store buf start end_ writeSize store₂ where
  index b hb := (h₂.index b (by rwa [indexBlocksUpTo_congr h₁.index])).trans (h₁.index b hb)
  bytes j hj := by
    rw [h₂.bytes j hj, h₁.bytes j hj]
    by_cases h₃ : mid ≤ j ∧ j < end_
    · rw [if_pos h₃, if_pos (show start ≤ j ∧ j < end_ by omega)]
      congr 1; omega
    · rw [if_neg h₃]
      split_ifs <;> first | rfl | omega
  frame b hb := by
    by_cases h : store' b = store b
    · obtain ⟨i, hi, rfl⟩ := h₂.frame b (h ▸ hb)
      exact ⟨i, hi, h₁.blockAt_eq hi⟩
    · exact h₁.frame b h

/-- The written run holds the buffer. -/
theorem bytesIn_self (h : Written d store buf start end_ 0 store') (he : end_ ≤ d.size)
    (hlen : buf.length = end_ - start) : d.bytesIn store' start end_ = buf := by
  refine List.ext_getElem (by rw [length_bytesIn, hlen]) fun i hi _ ↦ ?_
  rw [length_bytesIn] at hi
  simp only [bytesIn, List.getElem_map, List.getElem_range', Nat.one_mul]
  rw [h.bytes _ (by omega), if_pos (by omega), Nat.zero_add, Nat.add_sub_cancel_left,
    List.getD_eq_getElem _ _ (by omega)]

end Written

/-- One round of the loop of `DiskInode::write_at`: the part of `buf` for `[start, e)` copied
into the data block of `start`. -/
theorem written_round (hnd : (d.addressed store).Nodup) (buf : List UInt8)
    {start e writeSize : Nat} (he : start ≤ e) (hblk : e ≤ (start / blockSz + 1) * blockSz)
    (hsize : e ≤ d.size) (hbuf : writeSize + (e - start) ≤ buf.length) :
    Written d store buf start e writeSize (Function.update store (d.blockAt store (start / blockSz))
      ((store (d.blockAt store (start / blockSz))).write 0 blockSz
        (copyFromSlice ((store (d.blockAt store (start / blockSz))).slice 0 blockSz)
          (start % blockSz) ((buf.drop writeSize).take (e - start))))) := by
  rcases Nat.eq_or_lt_of_le he with rfl | he
  · rw [Nat.sub_self, List.take_zero, copyFromSlice_nil, Block.write_slice,
      Function.update_eq_self]
    exact ⟨fun _ _ ↦ rfl, fun j _ ↦ by rw [if_neg (by omega)], fun _ h ↦ absurd rfl h⟩
  have hn : start / blockSz < d.dataBlocks := by
    simp only [dataBlocks, dataBlocksOf, blockSz] at hsize ⊢; omega
  have hB := blockAt_not_mem_indexBlocksUpTo hnd hn
  have hsrc : ((buf.drop writeSize).take (e - start)).length = e - start := by simp; omega
  set blk := (store (d.blockAt store (start / blockSz))).write 0 blockSz
    (copyFromSlice ((store (d.blockAt store (start / blockSz))).slice 0 blockSz)
      (start % blockSz) ((buf.drop writeSize).take (e - start)))
  have hindex : ∀ b ∈ d.indexBlocksUpTo store d.dataBlocks,
      Function.update store (d.blockAt store (start / blockSz)) blk b = store b :=
    fun b hb ↦ Function.update_noteq (fun h ↦ hB (by rw [← h]; exact hb)) _ _
  refine ⟨hindex, fun j hj ↦ ?_, fun b hb ↦ ⟨start / blockSz, hn, ?_⟩⟩
  · have hjn : j / blockSz < d.dataBlocks := by
      simp only [dataBlocks, dataBlocksOf, blockSz] at hj ⊢; omega
    rw [byteAt, blockAt_congr hindex hjn]
    by_cases hjb : d.blockAt store (j / blockSz) = d.blockAt store (start / blockSz)
    · have hjs := blockAt_injective hnd hjn hn hjb
      rw [hjb, Function.update_same, get_write_copyFromSlice _ (by rw [hsrc]; simp only [blockSz] at *; omega), hsrc, byteAt, hjs]
      have hmod : j % blockSz = start % blockSz + (j - start) ∨ j < start ∨ e ≤ j := by
        simp only [blockSz] at *; omega
      by_cases hr : start ≤ j ∧ j < e
      · rw [if_pos (by simp only [blockSz] at *; omega), if_pos hr]
        simp [List.getD_eq_getElem?_getD, show j % blockSz - start % blockSz = j - start by
          simp only [blockSz] at *; omega, show j - start < e - start by omega]
      · rw [if_neg (by simp only [blockSz] at *; omega), if_neg hr]
    · rw [Function.update_noteq hjb, if_neg, byteAt]
      rintro ⟨h₁, h₂⟩
      exact hjb (by rw [show j / blockSz = start / blockSz by simp only [blockSz] at *; omega])
  · by_contra hne
    exact hb (Function.update_noteq hne _ _)

/-- The loop of `DiskInode::write_at` copies `buf`, from `writeSize` on, into the bytes
`[start, end_)`. -/
theorem runStore_writeAtLoop (buf : List UInt8) {end_ : Nat} (hend : end_ ≤ d.size)
    (hmax : d.dataBlocks ≤ maxDataBlocks) (s : Nat → Block) (hnd : (d.addressed s).Nodup)
    (start writeSize : Nat) (hs : start ≤ end_) (hsb : start / blockSz < maxDataBlocks)
    (hbuf : writeSize + (end_ - start) ≤ buf.length) :
    ∃ s', (d.writeAtLoop buf end_ start (start / blockSz) writeSize).runStore s =
        .ok (writeSize + (end_ - start), s') ∧ Written d s buf start end_ writeSize s' := by
  have hsz : 0 + blockSz ≤ blockSz := by omega
  have hle : min ((start / blockSz + 1) * blockSz) end_ ≤ end_ := min_le_right _ _
  have hround : Written d s buf start (min ((start / blockSz + 1) * blockSz) end_) writeSize _ :=
    written_round d s hnd buf (by simp only [blockSz]; omega) (min_le_left _ _) (by omega)
      (by omega)
  rw [writeAtLoop]
  simp only [BlockIo.bind_eq, BlockIo.pure_eq]
  rw [BlockIo.runStore_bind_of_ok _ (d.runStore_getBlockId s hsb), BlockIo.runStore_bind,
    BlockIo.runStore_modify _ _ _ _ _ hsz, BlockIo.runStore_pure]
  simp only
  split_ifs with h
  · rw [BlockIo.runStore_pure]
    rw [h] at hround ⊢
    exact ⟨_, rfl, hround⟩
  · set e := min ((start / blockSz + 1) * blockSz) end_ with he_def
    have hdiv : e / blockSz = start / blockSz + 1 := div_endCurrentBlock h
    have he : e < d.size := lt_of_lt_of_le (lt_of_le_of_ne hle h) hend
    have hse : start < e := by rw [he_def] at h ⊢; simp only [blockSz] at *; omega
    obtain ⟨s', hrun, hw⟩ := runStore_writeAtLoop buf hend hmax _
      (by rw [hround.addressed_eq]; exact hnd) e (writeSize + (e - start)) hle
      (lt_of_lt_of_le (by simp only [dataBlocks, dataBlocksOf, blockSz] at he ⊢; omega) hmax)
      (by omega)
    rw [hdiv] at hrun
    refine ⟨s', by rw [hrun, Nat.add_assoc, show e - start + (end_ - e) = end_ - start by omega],
      hround.trans hw (by omega) hle⟩
termination_by end_ - start

/-- `DiskInode::write_at`: `buf` copied into the bytes from `offset` on, up to the size, and
the number of bytes copied. -/
theorem runStore_writeAt (hmax : d.dataBlocks ≤ maxDataBlocks) (hnd : (d.addressed store).Nodup)
    {offset : Nat} (buf : List UInt8) (hoff : offset ≤ d.size)
    (hsb : offset / blockSz < maxDataBlocks) :
    ∃ store', (d.writeAt offset buf).runStore store =
        .ok (min (offset + buf.length) d.size - offset, store') ∧
      Written d store buf offset (min (offset + buf.length) d.size) 0 store' := by
  rw [writeAt, if_pos (by omega)]
  obtain ⟨store', hrun, hw⟩ := d.runStore_writeAtLoop buf
    (min_le_right (offset + buf.length) d.size) hmax store hnd offset 0
    (by omega) hsb (by omega)
  exact ⟨store', by rw [hrun, Nat.zero_add], hw⟩

/-! ### The data of a grown inode -/

section Prefix

variable {d store}

theorem blocksUpTo_prefix_of_le {m n : Nat} (h : m ≤ n) :
    d.blocksUpTo store m <+: d.blocksUpTo store n := by
  induction n, h using Nat.le_induction with
  | base => exact List.prefix_refl _
  | succ n _ ih => exact ih.trans (blocksUpTo_succ d store n ▸ List.prefix_append _ _)

/-- Two inodes whose lists of blocks are prefixes of one list have the same data blocks where
both reach. -/
theorem blockAt_eq_of_prefix {d' : DiskInode} {store' : Nat → Block} {l : List Nat} {i n n' : Nat}
    (hi : i < n) (hn : d.blocksUpTo store n <+: l) (hi' : i < n')
    (hn' : d'.blocksUpTo store' n' <+: l) : d'.blockAt store' i = d.blockAt store i := by
  have hp := (@blocksUpTo_prefix_of_le d store _ _ hi).trans hn
  have hp' := (@blocksUpTo_prefix_of_le d' store' _ _ hi').trans hn'
  have heq : d'.blocksUpTo store' (i + 1) = d.blocksUpTo store (i + 1) :=
    (List.prefix_of_prefix_length_le hp' hp (by rw [length_blocksUpTo, length_blocksUpTo])).eq_of_length
      (by rw [length_blocksUpTo, length_blocksUpTo])
  have hlast := congrArg List.getLast? heq
  simpa [blocksUpTo_succ, slotBlocks] using hlast

/-- Growing an inode keeps the bytes below its old size. -/
theorem Grown.byteAt_eq {newSize : Nat} {newBlocks : List Nat} {d' : DiskInode}
    {store' : Nat → Block} (h : Grown d store newSize newBlocks d' store') (hsize : d.size ≤ newSize)
    (hnd : (d'.addressed store').Nodup) {j : Nat} (hj : j < d.size) :
    d'.byteAt store' j = d.byteAt store j := by
  have hn : j / blockSz < d.dataBlocks := by
    simp only [dataBlocks, dataBlocksOf, blockSz] at hj ⊢; omega
  have hn' : j / blockSz < d'.dataBlocks := lt_of_lt_of_le hn
    (by rw [dataBlocks, dataBlocks, h.size_eq]; exact dataBlocksOf_mono hsize)
  have hb : d'.blockAt store' (j / blockSz) = d.blockAt store (j / blockSz) :=
    blockAt_eq_of_prefix hn (List.prefix_append (d.addressed store) newBlocks) hn'
      (by rw [← h.addressed_eq]; exact List.prefix_refl _)
  rw [byteAt, byteAt, hb]
  congr 1
  by_contra hne
  exact blockAt_not_mem_indexBlocksUpTo hnd hn' (by rw [hb]; exact h.frame _ hne)

end Prefix

end DiskInode
end Rcore.EasyFs
