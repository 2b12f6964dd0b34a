import Rcore.EasyFs.BlockIo
import Rcore.Codec
import Mathlib.Data.Finset.Basic
import Mathlib.Data.List.GetD

/-!
# The block bitmap

A `Bitmap` (`bitmap.rs`) is a region of `blocks` blocks from `start_block_id` on, each read as a
`BitmapBlock = [u64; 64]`, so the region holds `BLOCK_BITS · blocks = 4096 · blocks` bits. Bit
`i` is bit `i % 64` of word `(i % 4096) / 64` of block `start + i / 4096`, the numbering of
`decomposition`.

`Bitmap::alloc` is the first-fit loop `allocFrom` over the blocks of the region: inside the
`modify` of each block it looks for the first word that is not `u64::MAX` and sets its lowest
clear bit (`allocInBlock`). `Bitmap::dealloc` asserts that the bit is set and subtracts it.

Both are `BlockIo` computations, so they run on the cache through `runCache` and on a plain
array of blocks through `runStore`; `runCache_simulates` transfers every fact proved here about
the array to the cache. `bitmap_refines_finset` is the refinement of the bitmap by the finite
set `allocated` of its set bits: `alloc` adds the least free index, or reports that there is
none; `dealloc` removes a present index and fails its assertion on an absent one; neither
touches a block outside the region.
-/

set_option autoImplicit false
set_option relaxedAutoImplicit false

namespace Rcore.EasyFs

/-! ### Words -/

/-- `u64::MAX`. -/
def u64Max : Nat := 2 ^ 64 - 1

/-- `u64::trailing_ones`: the number of set bits below the lowest clear one. -/
def trailingOnes (x : Nat) : Nat := (List.range 64).findIdx fun i ↦ !x.testBit i

theorem testBit_u64Max {i : Nat} (hi : i < 64) : u64Max.testBit i := by
  rw [u64Max, Nat.testBit_two_pow_sub_one, decide_eq_true hi]

/-- A word with its 64 bits set is `u64::MAX`. -/
theorem eq_u64Max_of_testBit {x : Nat} (hx : x < 2 ^ 64) (h : ∀ i < 64, x.testBit i) :
    x = u64Max := by
  apply Nat.eq_of_testBit_eq
  intro i
  rw [u64Max, Nat.testBit_two_pow_sub_one]
  by_cases hi : i < 64
  · simp [h i hi, hi]
  · have : x < 2 ^ i := Nat.lt_of_lt_of_le hx (Nat.pow_le_pow_right (by decide) (by omega))
    simp [hi, Nat.testBit_lt_two_pow this]

/-- In a word that is not `u64::MAX`, `trailing_ones` is the lowest clear bit. -/
theorem trailingOnes_spec {x : Nat} (hx : x < 2 ^ 64) (hmax : x ≠ u64Max) :
    trailingOnes x < 64 ∧ x.testBit (trailingOnes x) = false ∧
      ∀ j < trailingOnes x, x.testBit j := by
  have hex : ∃ i ∈ List.range 64, (!x.testBit i) = true := by
    refine Classical.not_forall_not.mp fun hno ↦ hmax (eq_u64Max_of_testBit hx fun i hi ↦ ?_)
    simpa [hi] using hno i
  have hlt : trailingOnes x < 64 := by
    simpa using List.findIdx_lt_length_of_exists hex
  refine ⟨hlt, ?_, fun j hj ↦ ?_⟩
  · have h := @List.findIdx_getElem _ (fun i ↦ !x.testBit i) (List.range 64) (by simpa using hlt)
    rw [List.getElem_range] at h
    simpa using h
  · simpa using List.not_of_lt_findIdx hj

/-- The assertion of `dealloc`: masking with `1 << t` is nonzero exactly when bit `t` is set. -/
theorem and_two_pow_pos_iff (w t : Nat) : 0 < w &&& 2 ^ t ↔ w.testBit t := by
  have : w &&& 2 ^ t = if w.testBit t then 2 ^ t else 0 := by
    apply Nat.eq_of_testBit_eq
    intro i
    split_ifs with h
    all_goals
      simp only [Nat.testBit_and, Nat.testBit_two_pow, Nat.zero_testBit]
      by_cases hi : t = i
      · subst hi; simp [h]
      · simp [hi]
  rw [this]; split_ifs with h <;> simp [h, Nat.two_pow_pos]

/-- Subtracting a set bit clears exactly that bit. -/
theorem testBit_sub_two_pow {w t : Nat} (h : w.testBit t) (j : Nat) :
    (w - 2 ^ t).testBit j = (w.testBit j && j != t) := by
  obtain ⟨q, r, hr, rfl⟩ : ∃ q r, r < 2 ^ t ∧ w = 2 ^ t * q + r :=
    ⟨w / 2 ^ t, w % 2 ^ t, Nat.mod_lt _ (Nat.two_pow_pos t), (Nat.div_add_mod w _).symm⟩
  rw [Nat.testBit_mul_pow_two_add _ hr] at h
  simp only [Nat.lt_irrefl, if_false, Nat.sub_self, Nat.testBit_zero, decide_eq_true_eq] at h
  have hsub : 2 ^ t * q + r - 2 ^ t = 2 ^ t * (q - 1) + r := by
    rw [Nat.mul_sub, Nat.mul_one]
    have : 2 ^ t ≤ 2 ^ t * q := Nat.le_mul_of_pos_right _ (by omega)
    omega
  rw [hsub, Nat.testBit_mul_pow_two_add _ hr, Nat.testBit_mul_pow_two_add _ hr]
  split_ifs with hj
  · simp [Nat.ne_of_lt hj]
  · rcases Nat.eq_or_lt_of_le (Nat.le_of_not_lt hj) with rfl | hlt
    · simp [Nat.sub_self, Nat.testBit_zero]; omega
    · obtain ⟨k, hk⟩ : ∃ k, j - t = k + 1 := ⟨j - t - 1, by omega⟩
      have hdiv : (q - 1) / 2 = q / 2 := by omega
      simp [hk, Nat.testBit_add_one, hdiv, Nat.ne_of_gt hlt]

/-! ### Bitmap blocks -/

/-- `BLOCK_BITS`, the number of bits in a block. -/
def blockBits : Nat := blockSz * 8

theorem blockBits_eq : blockBits = 4096 := rfl

/-- `size_of::<BitmapBlock>()`. -/
def bitmapBlockSize : Nat := 8 * 64

/-- The `[u64; 64]` stored in the bytes of a bitmap block. -/
def bitmapBlock (bytes : List UInt8) : List Nat := words 8 64 bytes

/-- Bit `k` of a bitmap block: bit `k % 64` of word `k / 64`. -/
def bitAt (block : List Nat) (k : Nat) : Bool := (block.getD (k / 64) 0).testBit (k % 64)

/-- A value of `BitmapBlock`: 64 words, each below `2 ^ 64`. -/
def ValidBlock (block : List Nat) : Prop := block.length = 64 ∧ ∀ w ∈ block, w < 2 ^ 64

theorem validBlock_bitmapBlock (bytes : List UInt8) : ValidBlock (bitmapBlock bytes) :=
  ⟨length_words _ _ _, words_lt _ _ _⟩

theorem ValidBlock.set {block : List Nat} (hb : ValidBlock block) (i : Nat) {w : Nat}
    (hw : w < 2 ^ 64) : ValidBlock (block.set i w) := by
  refine ⟨by rw [List.length_set, hb.1], fun v hv ↦ ?_⟩
  rcases List.mem_or_eq_of_mem_set hv with hv | rfl
  exacts [hb.2 v hv, hw]

theorem ValidBlock.getD_lt {block : List Nat} (hb : ValidBlock block) (i : Nat) :
    block.getD i 0 < 2 ^ 64 := by
  rw [List.getD_eq_getElem?_getD]
  cases h : block[i]? with
  | none => exact Nat.two_pow_pos 64
  | some w => exact hb.2 w (List.getElem?_mem h)

/-- A bitmap block is its 4096 bits. -/
theorem ValidBlock.ext {a b : List Nat} (ha : ValidBlock a) (hb : ValidBlock b)
    (h : ∀ k < blockBits, bitAt a k = bitAt b k) : a = b := by
  refine List.ext_getElem (ha.1.trans hb.1.symm) fun i hia hib ↦ Nat.eq_of_testBit_eq fun j ↦ ?_
  have hi : i < 64 := ha.1 ▸ hia
  by_cases hj : j < 64
  · have := h (i * 64 + j) (by rw [blockBits_eq]; omega)
    rwa [bitAt, bitAt, show (i * 64 + j) / 64 = i by omega, show (i * 64 + j) % 64 = j by omega,
      List.getD_eq_getElem _ _ hia, List.getD_eq_getElem _ _ hib] at this
  · have hle : 2 ^ 64 ≤ 2 ^ j := Nat.pow_le_pow_right (by decide) (by omega)
    rw [Nat.testBit_lt_two_pow (lt_of_lt_of_le (ha.2 _ (List.getElem_mem hia)) hle),
      Nat.testBit_lt_two_pow (lt_of_lt_of_le (hb.2 _ (List.getElem_mem hib)) hle)]

theorem bitAt_set (block : List Nat) {i : Nat} (hi : i < block.length) (w k : Nat) :
    bitAt (block.set i w) k = if k / 64 = i then w.testBit (k % 64) else bitAt block k := by
  by_cases hk : k / 64 = i
  · subst hk; simp [bitAt, hi]
  · simp [bitAt, hk, List.getElem?_set_ne (Ne.symm hk)]

/-- The closure `Bitmap::alloc` runs on one bitmap block: the block's new value and the bit
it allocated, numbered `block_id * BLOCK_BITS + bits64_pos * 64 + inner_pos`. -/
def allocInBlock (blockId : Nat) (bitmapBlock : List Nat) : List Nat × Option Nat :=
  match bitmapBlock.findIdx? (fun bits64 ↦ bits64 != u64Max) with
  | some bits64Pos =>
    let innerPos := trailingOnes (bitmapBlock.getD bits64Pos 0)
    (bitmapBlock.set bits64Pos (bitmapBlock.getD bits64Pos 0 ||| 1 <<< innerPos),
      some (blockId * blockBits + bits64Pos * 64 + innerPos))
  | none => (bitmapBlock, none)

/-- `allocInBlock` either finds the block full and leaves it, or sets its lowest clear bit
`k` and returns `k`'s index. -/
theorem allocInBlock_spec (blockId : Nat) {block : List Nat} (hb : ValidBlock block) :
    ((allocInBlock blockId block).2 = none ∧ (allocInBlock blockId block).1 = block ∧
      ∀ k < blockBits, bitAt block k) ∨
    ∃ k < blockBits, (allocInBlock blockId block).2 = some (blockId * blockBits + k) ∧
      bitAt block k = false ∧ (∀ j < k, bitAt block j) ∧
      ValidBlock (allocInBlock blockId block).1 ∧
      ∀ j, bitAt (allocInBlock blockId block).1 j = (bitAt block j || j == k) := by
  unfold allocInBlock
  split
  · rename_i pos hpos
    obtain ⟨hlt, hne, hfull⟩ := List.findIdx?_eq_some_iff_getElem.mp hpos
    have hlt' : pos < 64 := hb.1 ▸ hlt
    have hw : block.getD pos 0 = block[pos] := by simp [hlt]
    have hwlt := hb.getD_lt pos
    obtain ⟨hto, hclear, hlow⟩ :=
      trailingOnes_spec hwlt (by rw [hw]; simpa using hne)
    have hmask : 1 <<< trailingOnes (block.getD pos 0) = 2 ^ trailingOnes (block.getD pos 0) :=
      Nat.one_shiftLeft _
    refine .inr ⟨pos * 64 + trailingOnes (block.getD pos 0), by rw [blockBits_eq]; omega,
      by simp [Nat.add_assoc], ?_, fun j hj ↦ ?_,
      hb.set _ (Nat.or_lt_two_pow hwlt (hmask ▸ Nat.pow_lt_pow_right (by decide) hto)),
      fun j ↦ ?_⟩
    · simp only [bitAt]
      rw [show (pos * 64 + trailingOnes (block.getD pos 0)) / 64 = pos by omega,
        show (pos * 64 + trailingOnes (block.getD pos 0)) % 64 = trailingOnes (block.getD pos 0)
          by omega, hclear]
    · simp only [bitAt]
      rcases Nat.lt_or_ge (j / 64) pos with hjw | hjw
      · have hmax : block[j / 64] = u64Max := by simpa using hfull _ hjw
        rw [List.getD_eq_getElem _ _ (by omega : j / 64 < block.length), hmax]
        exact testBit_u64Max (Nat.mod_lt _ (by decide))
      · rw [show j / 64 = pos by omega]
        exact hlow _ (by omega)
    · rw [bitAt_set _ hlt, hmask]
      split_ifs with hj
      · simp only [Nat.testBit_or, Nat.testBit_two_pow, bitAt, hj]
        congr 1
        rw [Bool.eq_iff_iff, decide_eq_true_iff, beq_iff_eq]
        omega
      · have : (j == pos * 64 + trailingOnes (block.getD pos 0)) = false := by
          simp only [beq_eq_false_iff_ne]; omega
        rw [this, Bool.or_false]
  · rename_i hnone
    refine .inl ⟨rfl, rfl, fun k hk ↦ ?_⟩
    have hk' : k / 64 < block.length := by rw [hb.1]; rw [blockBits_eq] at hk; omega
    have hmax : block[k / 64] = u64Max := by
      simpa using (List.findIdx?_eq_none_iff.mp hnone) _ (List.getElem_mem hk')
    simp only [bitAt]
    rw [List.getD_eq_getElem _ _ hk', hmax]
    exact testBit_u64Max (Nat.mod_lt _ (by decide))

/-! ### The bitmap -/

/-- `Bitmap`: the region of bitmap blocks `[start_block_id, start_block_id + blocks)`. -/
structure Bitmap where
  startBlockId : Nat
  blocks : Nat
  deriving Repr, DecidableEq

/-- `decomposition`: a bit index as `(block_pos, bits64_pos, inner_pos)`. -/
def decomposition (bit : Nat) : Nat × Nat × Nat :=
  let blockPos := bit / blockBits
  let bit := bit % blockBits
  (blockPos, bit / 64, bit % 64)

/-- `decomposition` inverts the numbering `block_id * BLOCK_BITS + bits64_pos * 64 + inner_pos`
of `alloc`. -/
theorem decomposition_index {b w t : Nat} (hw : w < 64) (ht : t < 64) :
    decomposition (b * blockBits + w * 64 + t) = (b, w, t) := by
  simp only [decomposition, blockBits_eq, Prod.mk.injEq]
  refine ⟨?_, ?_, ?_⟩ <;> omega

namespace Bitmap

/-- The message of the assertion of `Bitmap::dealloc`. -/
def deallocMsg : String :=
  "assertion failed: bitmap_block[bits64_pos] & (1u64 << inner_pos) > 0"

/-- The loop of `Bitmap::alloc` over the given block ids of the region. -/
def allocFrom (bm : Bitmap) : List Nat → BlockIo (Option Nat)
  | [] => pure none
  | blockId :: rest => do
    let pos ← BlockIo.modify (blockId + bm.startBlockId) 0 bitmapBlockSize fun bytes ↦
      pure ((allocInBlock blockId (bitmapBlock bytes)).map (unwords 8) id)
    if pos.isSome then pure pos else bm.allocFrom rest

/-- `Bitmap::alloc`: the first free bit of the region, set, or `None`. -/
def alloc (bm : Bitmap) : BlockIo (Option Nat) := bm.allocFrom (List.range bm.blocks)

/-- `Bitmap::dealloc`. -/
def dealloc (bm : Bitmap) (bit : Nat) : BlockIo Unit :=
  let (blockPos, bits64Pos, innerPos) := decomposition bit
  BlockIo.modify (blockPos + bm.startBlockId) 0 bitmapBlockSize fun bytes ↦
    let bitmapBlock := bitmapBlock bytes
    if bitmapBlock.getD bits64Pos 0 &&& 1 <<< innerPos > 0 then
      pure (unwords 8 (bitmapBlock.set bits64Pos (bitmapBlock.getD bits64Pos 0 - 1 <<< innerPos)),
        ())
    else BlockIo.panic deallocMsg

/-- `Bitmap::maximum`. -/
def maximum (bm : Bitmap) : Nat := bm.blocks * blockBits

/-- The words of block `blockId` of the region in a block array. -/
def blockWords (bm : Bitmap) (store : Nat → Block) (blockId : Nat) : List Nat :=
  bitmapBlock ((store (blockId + bm.startBlockId)).slice 0 bitmapBlockSize)

/-- Bit `i` of the bitmap: bit `i % 64` of word `(i % 4096) / 64` of block `i / 4096`. -/
def isSet (bm : Bitmap) (store : Nat → Block) (i : Nat) : Bool :=
  bitAt (bm.blockWords store (i / blockBits)) (i % blockBits)

/-- The set of allocated indices. -/
def allocated (bm : Bitmap) (store : Nat → Block) : Finset Nat :=
  (Finset.range bm.maximum).filter fun i ↦ bm.isSet store i

/-- The array with block `blockId` of the region holding the words `block`. -/
def writeWords (bm : Bitmap) (store : Nat → Block) (blockId : Nat) (block : List Nat) :
    Nat → Block :=
  Function.update store (blockId + bm.startBlockId)
    ((store (blockId + bm.startBlockId)).write 0 bitmapBlockSize (unwords 8 block))

variable (bm : Bitmap)

theorem mem_allocated {store : Nat → Block} {i : Nat} :
    i ∈ bm.allocated store ↔ i < bm.maximum ∧ bm.isSet store i := by
  simp [allocated]

theorem writeWords_of_ne (store : Nat → Block) {blockId b : Nat} (block : List Nat)
    (hb : b ≠ blockId + bm.startBlockId) : bm.writeWords store blockId block b = store b :=
  Function.update_noteq hb _ _

theorem blockWords_writeWords (store : Nat → Block) (blockId : Nat) {block : List Nat}
    (hb : ValidBlock block) (b : Nat) :
    bm.blockWords (bm.writeWords store blockId block) b =
      if b = blockId then block else bm.blockWords store b := by
  split_ifs with h
  · subst h
    have hlen : (unwords 8 block).length = bitmapBlockSize := by simp [hb.1, bitmapBlockSize]
    rw [blockWords, writeWords, Function.update_same,
      Block.slice_write_self _ _ (by decide) hlen, bitmapBlock, words_unwords hb.1 hb.2]
  · rw [blockWords, blockWords, writeWords_of_ne _ _ _ (by omega)]

theorem isSet_writeWords (store : Nat → Block) (blockId : Nat) {block : List Nat}
    (hb : ValidBlock block) (i : Nat) :
    bm.isSet (bm.writeWords store blockId block) i =
      if i / blockBits = blockId then bitAt block (i % blockBits) else bm.isSet store i := by
  simp only [isSet, blockWords_writeWords _ _ _ hb]
  split_ifs <;> rfl

/-- A `modify` of a bitmap block whose closure maps the block's words. -/
theorem runStore_modifyWords {α : Type} (store : Nat → Block) (blockId : Nat)
    (f : List Nat → List Nat × α) :
    (BlockIo.modify (blockId + bm.startBlockId) 0 bitmapBlockSize fun bytes ↦
        pure ((f (bitmapBlock bytes)).map (unwords 8) id)).runStore store =
      .ok ((f (bm.blockWords store blockId)).2,
        bm.writeWords store blockId (f (bm.blockWords store blockId)).1) := by
  rw [BlockIo.runStore_modify _ _ _ _ _ (by decide)]
  simp [blockWords, writeWords, Nat.zero_add]

/-! ### `alloc` -/

/-- The first-fit loop over the blocks `[k, k + n)` of the region returns, and either finds
them all full and leaves every bit, or sets and returns the least clear bit among them. It
writes no block outside them. -/
theorem allocFrom_range' (k n : Nat) (store : Nat → Block) :
    ∃ r store', (bm.allocFrom (List.range' k n)).runStore store = .ok (r, store') ∧
      (∀ b, b < k + bm.startBlockId ∨ k + n + bm.startBlockId ≤ b → store' b = store b) ∧
      (r = none → (∀ i, k * blockBits ≤ i → i < (k + n) * blockBits → bm.isSet store i) ∧
        bm.isSet store' = bm.isSet store) ∧
      ∀ m, r = some m → k * blockBits ≤ m ∧ m < (k + n) * blockBits ∧
        bm.isSet store m = false ∧ (∀ i, k * blockBits ≤ i → i < m → bm.isSet store i) ∧
        bm.isSet store' = fun i ↦ bm.isSet store i || i == m := by
  induction n generalizing k store with
  | zero =>
    refine ⟨none, store, by simp [allocFrom], fun _ _ ↦ rfl, fun _ ↦ ⟨fun i h₁ h₂ ↦ ?_, rfl⟩,
      fun _ ↦ Option.noConfusion⟩
    rw [Nat.add_zero] at h₂; omega
  | succ n ih =>
    have hB := blockBits_eq
    have hstep := bm.runStore_modifyWords store k (allocInBlock k)
    rw [List.range'_succ]
    simp only [allocFrom, BlockIo.bind_eq]
    rw [BlockIo.runStore_bind_of_ok _ hstep]
    have hwf : ValidBlock (bm.blockWords store k) := validBlock_bitmapBlock _
    rcases allocInBlock_spec k hwf with ⟨hnone, hsame, hfull⟩ | ⟨j, hj, hsome, hclear, hlow, hwf', hbits⟩
    · -- block `k` is full: the loop goes on from the unchanged bitmap
      rw [hnone]
      simp only [Option.isSome_none, Bool.false_eq_true, if_false]
      have hwf₁ : ValidBlock (allocInBlock k (bm.blockWords store k)).1 := by rw [hsame]; exact hwf
      have hset₁ : bm.isSet (bm.writeWords store k (allocInBlock k (bm.blockWords store k)).1) =
          bm.isSet store := by
        funext i
        rw [bm.isSet_writeWords _ _ hwf₁, hsame]
        split_ifs with hi
        · rw [isSet, hi]
        · rfl
      obtain ⟨r, store', hrun, hframe, hnone', hsome'⟩ := ih (k + 1) _
      refine ⟨r, store', hrun, fun b hb ↦ ?_, fun hr ↦ ?_, fun m hm ↦ ?_⟩
      · rw [hframe b (by omega), bm.writeWords_of_ne _ _ (by omega)]
      · obtain ⟨hall, heq⟩ := hnone' hr
        refine ⟨fun i h₁ h₂ ↦ ?_, heq.trans hset₁⟩
        rcases Nat.lt_or_ge i ((k + 1) * blockBits) with hi | hi
        · have hik : i / blockBits = k := by rw [hB] at *; omega
          rw [isSet, hik]
          exact hfull _ (Nat.mod_lt _ (by rw [hB]; decide))
        · exact (congrFun hset₁ i).symm.trans (hall i hi (by rw [hB] at *; omega))
      · obtain ⟨hlo, hhi, hm₁, hbelow, heq⟩ := hsome' m hm
        refine ⟨by rw [hB] at *; omega, by rw [hB] at *; omega, (congrFun hset₁ m).symm.trans hm₁,
          fun i h₁ h₂ ↦ ?_, by rw [heq, hset₁]⟩
        rcases Nat.lt_or_ge i ((k + 1) * blockBits) with hi | hi
        · have hik : i / blockBits = k := by rw [hB] at *; omega
          rw [isSet, hik]
          exact hfull _ (Nat.mod_lt _ (by rw [hB]; decide))
        · exact (congrFun hset₁ i).symm.trans (hbelow i hi h₂)
    · -- block `k` has a clear bit: it is set and returned
      rw [hsome]
      simp only [Option.isSome_some, if_true, BlockIo.runStore_pure]
      refine ⟨_, _, rfl, fun b hb ↦ bm.writeWords_of_ne _ _ (by omega), Option.noConfusion,
        fun m hm ↦ ?_⟩
      cases hm
      have hdiv : (k * blockBits + j) / blockBits = k := by rw [hB] at *; omega
      have hmod : (k * blockBits + j) % blockBits = j := by rw [hB] at *; omega
      refine ⟨by omega, by rw [hB] at *; omega, by rw [isSet, hdiv, hmod]; exact hclear,
        fun i h₁ h₂ ↦ ?_, ?_⟩
      · have hik : i / blockBits = k := by rw [hB] at *; omega
        rw [isSet, hik]
        exact hlow _ (by rw [hB] at *; omega)
      · funext i
        rw [bm.isSet_writeWords _ _ hwf', hbits]
        split_ifs with hi
        · have : (i % blockBits == j) = (i == k * blockBits + j) := by
            rw [Bool.eq_iff_iff, beq_iff_eq, beq_iff_eq]; rw [hB] at *; omega
          rw [this, isSet, hi]
        · have : (i == k * blockBits + j) = false := by
            simp only [beq_eq_false_iff_ne]; rw [hB] at *; omega
          rw [this, Bool.or_false]

/-! ### `dealloc` -/

/-- `dealloc` either fails its assertion on a clear bit, or clears exactly that bit. -/
theorem dealloc_spec (store : Nat → Block) (bit : Nat) :
    (bm.isSet store bit = false ∧ (bm.dealloc bit).runStore store = .error deallocMsg) ∨
    (bm.isSet store bit ∧ ∃ block, ValidBlock block ∧
      (bm.dealloc bit).runStore store = .ok ((), bm.writeWords store (bit / blockBits) block) ∧
      ∀ k, bitAt block k = (bitAt (bm.blockWords store (bit / blockBits)) k &&
        k != bit % blockBits)) := by
  have hB := blockBits_eq
  have hwf : ValidBlock (bm.blockWords store (bit / blockBits)) := validBlock_bitmapBlock _
  have hpos : bit % blockBits / 64 < (bm.blockWords store (bit / blockBits)).length := by
    rw [hwf.1, hB]; omega
  have hinner : bit % blockBits % 64 = bit % 64 := by rw [hB]; omega
  have hmask : 1 <<< (bit % blockBits % 64) = 2 ^ (bit % 64) := by
    rw [Nat.one_shiftLeft, hinner]
  have hset : (bm.blockWords store (bit / blockBits)).getD (bit % blockBits / 64) 0 &&&
      1 <<< (bit % blockBits % 64) > 0 ↔ bm.isSet store bit := by
    rw [hmask, gt_iff_lt, and_two_pow_pos_iff, isSet, bitAt, hinner]
  simp only [dealloc, decomposition]
  rw [BlockIo.runStore_modify _ _ _ _ _ (by decide)]
  split_ifs with hc
  · have h := hset.mp hc
    refine .inr ⟨h, _, hwf.set _ (Nat.lt_of_le_of_lt (Nat.sub_le _ _) (hwf.getD_lt _)),
      by simp only [BlockIo.pure_eq, BlockIo.runStore_pure]; rfl, fun k ↦ ?_⟩
    rw [bitAt_set _ hpos, hmask]
    split_ifs with hk
    · rw [testBit_sub_two_pow (by rwa [isSet, bitAt, hinner] at h), bitAt, hk]
      congr 1
      rw [Bool.eq_iff_iff, bne_iff_ne, bne_iff_ne]
      rw [hB] at *; omega
    · have : (k != bit % blockBits) = true := by simp only [bne_iff_ne, ne_eq]; omega
      rw [this, Bool.and_true]
  · exact .inl ⟨by simpa using mt hset.mpr hc, by simp⟩

/-! ### Refinement of a finite set -/

theorem allocated_eq_of_isSet {store store' : Nat → Block} (h : bm.isSet store' = bm.isSet store) :
    bm.allocated store' = bm.allocated store := by
  simp only [allocated, h]

/-- The set `allocated` reads only the blocks of the region. -/
theorem allocated_congr {store store' : Nat → Block}
    (h : ∀ b, bm.startBlockId ≤ b → b < bm.startBlockId + bm.blocks → store' b = store b) :
    bm.allocated store' = bm.allocated store := by
  ext i
  simp only [mem_allocated]
  refine and_congr_right fun hi ↦ ?_
  have : i / blockBits < bm.blocks := by
    simp only [maximum, blockBits_eq] at hi ⊢; omega
  rw [isSet, isSet, blockWords, blockWords, h _ (Nat.le_add_left _ _) (by omega)]

/-- `alloc` on the set `allocated`: it returns `None` exactly when the set is full, and then
keeps it; otherwise it adds and returns the least index not in it. It writes no block outside
the region. -/
theorem alloc_allocated (store : Nat → Block) :
    ∃ r store', bm.alloc.runStore store = .ok (r, store') ∧
      (r = none ↔ bm.allocated store = Finset.range bm.maximum) ∧
      (r = none → bm.allocated store' = bm.allocated store) ∧
      (∀ m, r = some m → m < bm.maximum ∧ m ∉ bm.allocated store ∧
        (∀ j < m, j ∈ bm.allocated store) ∧
        bm.allocated store' = insert m (bm.allocated store)) ∧
      ∀ b, b < bm.startBlockId ∨ bm.startBlockId + bm.blocks ≤ b → store' b = store b := by
  obtain ⟨r, store', hrun, hframe, hnone, hsome⟩ := bm.allocFrom_range' 0 bm.blocks store
  have hmax : (0 + bm.blocks) * blockBits = bm.maximum := by rw [Nat.zero_add]; rfl
  rw [hmax] at hnone hsome
  refine ⟨r, store', by rwa [alloc, List.range_eq_range'], ⟨fun hr ↦ ?_, fun hfull ↦ ?_⟩,
    fun hr ↦ bm.allocated_eq_of_isSet (hnone hr).2, fun m hm ↦ ?_,
    fun b hb ↦ hframe b (by omega)⟩
  · ext i
    simp only [mem_allocated, Finset.mem_range, and_iff_left_iff_imp]
    exact fun h ↦ (hnone hr).1 i (Nat.zero_le _) h
  · cases r with
    | none => rfl
    | some m =>
      obtain ⟨-, hm, hclear, -⟩ := hsome m rfl
      have : m ∈ bm.allocated store := hfull ▸ Finset.mem_range.mpr hm
      simp [mem_allocated, hclear] at this
  · obtain ⟨-, hm, hclear, hbelow, heq⟩ := hsome m hm
    refine ⟨hm, by simp [mem_allocated, hclear], fun j hj ↦
      (bm.mem_allocated).mpr ⟨by omega, hbelow j (Nat.zero_le _) hj⟩, ?_⟩
    ext i
    simp only [mem_allocated, heq, Finset.mem_insert, Bool.or_eq_true, beq_iff_eq]
    constructor
    · rintro ⟨hi, h | rfl⟩
      exacts [.inr ⟨hi, h⟩, .inl rfl]
    · rintro (rfl | ⟨hi, h⟩)
      exacts [⟨hm, .inr rfl⟩, ⟨hi, .inl h⟩]

/-- `dealloc i` of an index below `maximum` on the set `allocated`: it fails its assertion
exactly when `i` is absent, and otherwise removes it, writing no block outside the region. -/
theorem dealloc_allocated (store : Nat → Block) {i : Nat} (hi : i < bm.maximum) :
    ((bm.dealloc i).runStore store = .error deallocMsg ↔ i ∉ bm.allocated store) ∧
      (i ∈ bm.allocated store → ∃ store', (bm.dealloc i).runStore store = .ok ((), store') ∧
        bm.allocated store' = (bm.allocated store).erase i ∧
        ∀ b, b < bm.startBlockId ∨ bm.startBlockId + bm.blocks ≤ b → store' b = store b) := by
  have hB := blockBits_eq
  have hframe : ∀ b, b < bm.startBlockId ∨ bm.startBlockId + bm.blocks ≤ b →
      b ≠ i / blockBits + bm.startBlockId := by
    have : i / blockBits < bm.blocks := by
      have h := hi
      simp only [maximum, hB] at h ⊢
      omega
    intro b hb
    generalize i / blockBits = q at this
    omega
  rcases bm.dealloc_spec store i with ⟨hclear, herr⟩ | ⟨hset, block, hwf, hrun, hbits⟩
  · rw [herr]
    exact ⟨iff_of_true rfl (by simp [mem_allocated, hclear]), fun h ↦ by
      simp [mem_allocated, hclear] at h⟩
  · refine ⟨by simp [hrun, mem_allocated, hi, hset], fun _ ↦
      ⟨bm.writeWords store (i / blockBits) block, hrun, ?_,
        fun b hb ↦ bm.writeWords_of_ne _ _ (hframe b hb)⟩⟩
    ext j
    simp only [mem_allocated, Finset.mem_erase, bm.isSet_writeWords _ _ hwf]
    split_ifs with hj
    · have hne : j % blockBits ≠ i % blockBits ↔ j ≠ i := by rw [hB] at *; omega
      rw [hbits, isSet, hj, Bool.and_eq_true, bne_iff_ne, hne]
      exact ⟨fun ⟨hlt, hb, hne⟩ ↦ ⟨hne, hlt, hb⟩, fun ⟨hne, hlt, hb⟩ ↦ ⟨hlt, hb, hne⟩⟩
    · exact ⟨fun ⟨hlt, hb⟩ ↦ ⟨fun h ↦ hj (congrArg (· / blockBits) h), hlt, hb⟩,
        fun ⟨_, hlt, hb⟩ ↦ ⟨hlt, hb⟩⟩

/-- The bitmap refines the finite set `allocated` of its set bits below `maximum`: `alloc`
returns `None` exactly when the set is full, and otherwise adds and returns the least index
not in it; `dealloc i` of an index below `maximum` fails its assertion exactly when `i` is
absent and otherwise removes it; `decomposition` inverts `alloc`'s numbering; and neither
operation writes a block outside the region. -/
theorem bitmap_refines_finset (store : Nat → Block) :
    (∃ r store', bm.alloc.runStore store = .ok (r, store') ∧
      (r = none ↔ bm.allocated store = Finset.range bm.maximum) ∧
      (r = none → bm.allocated store' = bm.allocated store) ∧
      (∀ m, r = some m → m < bm.maximum ∧ m ∉ bm.allocated store ∧
        (∀ j < m, j ∈ bm.allocated store) ∧
        bm.allocated store' = insert m (bm.allocated store)) ∧
      ∀ b, b < bm.startBlockId ∨ bm.startBlockId + bm.blocks ≤ b → store' b = store b) ∧
    (∀ i < bm.maximum,
      ((bm.dealloc i).runStore store = .error deallocMsg ↔ i ∉ bm.allocated store) ∧
      (i ∈ bm.allocated store → ∃ store', (bm.dealloc i).runStore store = .ok ((), store') ∧
        bm.allocated store' = (bm.allocated store).erase i ∧
        ∀ b, b < bm.startBlockId ∨ bm.startBlockId + bm.blocks ≤ b → store' b = store b)) ∧
    ∀ b w t, w < 64 → t < 64 → decomposition (b * blockBits + w * 64 + t) = (b, w, t) :=
  ⟨bm.alloc_allocated store, fun _ hi ↦ bm.dealloc_allocated store hi,
    fun _ _ _ hw ht ↦ decomposition_index hw ht⟩

/-! ### `dealloc` undoes `alloc` -/

/-- The bytes of a block of the region are its words. -/
theorem eq_of_blockWords {store store' : Nat → Block} {k : Nat}
    (h : bm.blockWords store' k = bm.blockWords store k) :
    store' (k + bm.startBlockId) = store (k + bm.startBlockId) := by
  have hslice : ∀ s : Nat → Block,
      (s (k + bm.startBlockId)).slice 0 blockSz = unwords 8 (bm.blockWords s k) := fun s ↦
    (unwords_words 8 64 _ (by simp [blockSz])).symm
  exact Block.eq_of_slice (by rw [hslice, hslice, h])

/-- The region is its set of allocated indices: two arrays with the same set that agree outside
the region are equal. -/
theorem eq_of_allocated {store store' : Nat → Block}
    (h : bm.allocated store' = bm.allocated store)
    (hframe : ∀ b, b < bm.startBlockId ∨ bm.startBlockId + bm.blocks ≤ b → store' b = store b) :
    store' = store := by
  funext b
  by_cases hb : b < bm.startBlockId ∨ bm.startBlockId + bm.blocks ≤ b
  · exact hframe b hb
  obtain ⟨k, hk, rfl⟩ : ∃ k < bm.blocks, b = k + bm.startBlockId :=
    ⟨b - bm.startBlockId, by omega, by omega⟩
  refine bm.eq_of_blockWords (ValidBlock.ext (validBlock_bitmapBlock _) (validBlock_bitmapBlock _)
    fun j hj ↦ ?_)
  have hidx : k * blockBits + j < bm.maximum := by
    simp only [maximum, blockBits_eq] at hj ⊢; omega
  have hiff := congrArg (k * blockBits + j ∈ ·) h
  simp only [mem_allocated, hidx, true_and, eq_iff_iff, Bool.coe_iff_coe] at hiff
  rwa [isSet, isSet, show (k * blockBits + j) / blockBits = k by rw [blockBits_eq] at *; omega,
    show (k * blockBits + j) % blockBits = j by rw [blockBits_eq] at *; omega] at hiff

/-- `dealloc` undoes `alloc` on the device, byte for byte: freeing the index `alloc` returned
leaves every block as it was before the allocation. -/
theorem dealloc_alloc_restores {store store₁ : Nat → Block} {m : Nat}
    (h : bm.alloc.runStore store = .ok (some m, store₁)) :
    (bm.dealloc m).runStore store₁ = .ok ((), store) := by
  obtain ⟨r, s₁, hrun, -, -, hsome, hframe₁⟩ := bm.alloc_allocated store
  rw [h] at hrun
  obtain ⟨rfl, rfl⟩ := Prod.mk.inj (Except.ok.inj hrun)
  obtain ⟨hm, hfresh, -, hins⟩ := hsome m rfl
  obtain ⟨store₂, hrun₂, herase, hframe₂⟩ :=
    (bm.dealloc_allocated store₁ hm).2 (by rw [hins]; exact Finset.mem_insert_self m _)
  rw [hrun₂, bm.eq_of_allocated (by rw [herase, hins, Finset.erase_insert hfresh])
    fun b hb ↦ (hframe₂ b hb).trans (hframe₁ b hb)]

theorem dealloc_alloc_restores_empty :
    ∃ m store₁, (⟨0, 1⟩ : Bitmap).alloc.runStore (fun _ ↦ default) = .ok (some m, store₁) ∧
      ((⟨0, 1⟩ : Bitmap).dealloc m).runStore store₁ = .ok ((), fun _ ↦ default) := by
  obtain ⟨r, store₁, hrun, hfull, -⟩ := (⟨0, 1⟩ : Bitmap).alloc_allocated fun _ ↦ default
  cases r with
  | none =>
    have h0 : 0 ∈ (⟨0, 1⟩ : Bitmap).allocated fun _ ↦ default := by
      rw [hfull.mp rfl]; exact Finset.mem_range.mpr (by decide)
    have hclear : (⟨0, 1⟩ : Bitmap).isSet (fun _ ↦ default) 0 = false := by
      set_option maxRecDepth 4000 in decide
    exact absurd ((mem_allocated _).mp h0).2 (by rw [hclear]; decide)
  | some m => exact ⟨m, store₁, hrun, dealloc_alloc_restores _ hrun⟩

end Bitmap

end Rcore.EasyFs
