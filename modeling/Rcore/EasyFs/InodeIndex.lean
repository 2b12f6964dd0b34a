import Rcore.EasyFs.Layout

/-!
# The blocks an inode addresses

`DiskInode.blockAt d store i` is the id of data block `i` of an inode as `get_block_id` reads
it from the block array `store`: a direct id, an entry of the indirect index block, or an
entry of a second-level index block named by the doubly indirect one. `slotBlocks d store i`
is what data block `i` brings into the index: the indirect block with data block 28, the
doubly indirect block with data block 156, a second-level index block with every 128th data
block from there, and the data block itself. `increase_size` takes its fresh blocks in this
order and `clear_size` returns them in this order, so `blocksUpTo d store n`, the slots of the
first `n` data blocks, is both the list `increase_size` consumed to reach `n` data blocks and
the list `clear_size` returns; its length is `total_blocks` (`length_blocksUpTo`).

`blockAt` reads only the index blocks among the first slots (`blockAt_congr`), so a write to
any other block leaves the inode's view of its blocks unchanged.
-/

set_option autoImplicit false
set_option relaxedAutoImplicit false

namespace Rcore.EasyFs

/-- Entry `k` of the index block `b` in a block array. -/
def indexEntry (store : Nat → Block) (b k : Nat) : Nat :=
  (indirectBlock ((store b).slice 0 blockSz)).getD k 0

theorem indexEntry_congr {store store' : Nat → Block} {b : Nat} (h : store' b = store b)
    (k : Nat) : indexEntry store' b k = indexEntry store b k := by
  rw [indexEntry, indexEntry, h]

/-- The data blocks the index of an inode can address: the direct ids, one index block, and
128 index blocks under the doubly indirect one. -/
def maxDataBlocks : Nat := indirect1Bound + inodeIndirect1Count * inodeIndirect1Count

theorem maxDataBlocks_eq : maxDataBlocks = 16540 := rfl

theorem inodeIndirect1Count_eq : inodeIndirect1Count = 128 := rfl

namespace DiskInode

variable (d : DiskInode) (store : Nat → Block)

/-- The id of data block `i`, as `get_block_id` reads it. -/
def blockAt (i : Nat) : Nat :=
  if i < inodeDirectCount then d.direct.getD i 0
  else if i < indirect1Bound then indexEntry store d.indirect1 (i - inodeDirectCount)
  else
    indexEntry store (indexEntry store d.indirect2 ((i - indirect1Bound) / inodeIndirect1Count))
      ((i - indirect1Bound) % inodeIndirect1Count)

/-- The index blocks data block `i` brings into the index. -/
def slotIndexBlocks (i : Nat) : List Nat :=
  (if i = inodeDirectCount then [d.indirect1] else []) ++
  (if i = indirect1Bound then [d.indirect2] else []) ++
  (if indirect1Bound ≤ i ∧ (i - indirect1Bound) % inodeIndirect1Count = 0 then
    [indexEntry store d.indirect2 ((i - indirect1Bound) / inodeIndirect1Count)] else [])

/-- The blocks data block `i` brings into the index: its index blocks, then itself. -/
def slotBlocks (i : Nat) : List Nat := d.slotIndexBlocks store i ++ [d.blockAt store i]

/-- The blocks of the first `n` data blocks, data and index blocks, in index order. -/
def blocksUpTo (n : Nat) : List Nat := (List.range n).flatMap (d.slotBlocks store)

/-- The index blocks of the first `n` data blocks. -/
def indexBlocksUpTo (n : Nat) : List Nat := (List.range n).flatMap (d.slotIndexBlocks store)

/-- Every block the inode addresses: what `clear_size` returns. -/
def addressed : List Nat := d.blocksUpTo store d.dataBlocks

/-- The number of extra index blocks slot `i` brings. -/
def slotExtra (i : Nat) : Nat :=
  (if i = inodeDirectCount then 1 else 0) + (if i = indirect1Bound then 1 else 0) +
    (if indirect1Bound ≤ i ∧ (i - indirect1Bound) % inodeIndirect1Count = 0 then 1 else 0)

theorem length_slotBlocks (i : Nat) : (d.slotBlocks store i).length = slotExtra i + 1 := by
  simp only [slotBlocks, slotIndexBlocks, slotExtra, List.length_append]
  split_ifs <;> simp

theorem blocksUpTo_succ (n : Nat) :
    d.blocksUpTo store (n + 1) = d.blocksUpTo store n ++ d.slotBlocks store n := by
  simp [blocksUpTo, List.range_succ, List.flatMap_append]

theorem length_blocksUpTo (n : Nat) :
    (d.blocksUpTo store n).length = n + (if n > inodeDirectCount then 1 else 0) +
      (if n > indirect1Bound then
        1 + (n - indirect1Bound + inodeIndirect1Count - 1) / inodeIndirect1Count else 0) := by
  induction n with
  | zero => rfl
  | succ n ih =>
    rw [blocksUpTo_succ, List.length_append, ih, length_slotBlocks, slotExtra]
    simp only [inodeDirectCount, indirect1Bound, inodeIndirect1Count, blockSz]
    -- on each side of the doubly indirect block, drop the conditions that side decides first
    rcases Nat.lt_or_ge n 156 with h | h <;> simp (disch := omega) only [if_neg, if_pos] <;>
      split_ifs <;> omega

/-- `clear_size` returns `total_blocks(size)` blocks. -/
theorem length_addressed : (d.addressed store).length = totalBlocks d.size := by
  rw [addressed, length_blocksUpTo, totalBlocks, dataBlocks]
  split_ifs <;> omega

/-- `get_block_id` of a data block the index can address. -/
theorem runStore_getBlockId {i : Nat} (hi : i < maxDataBlocks) :
    (d.getBlockId i).runStore store = .ok (d.blockAt store i, store) := by
  have hsz : 0 + blockSz ≤ blockSz := by omega
  unfold getBlockId blockAt
  split_ifs with h₁ h₂
  · exact BlockIo.runStore_pure _ _
  · rw [BlockIo.runStore_read _ _ _ _ _ hsz, BlockIo.pure_eq, BlockIo.runStore_pure]; rfl
  · have h₃ : (i - indirect1Bound) / inodeIndirect1Count < inodeIndirect1Count := by
      simp only [maxDataBlocks, indirect1Bound, inodeDirectCount, inodeIndirect1Count,
        blockSz] at hi h₂ ⊢
      omega
    simp only [BlockIo.bind_eq]
    rw [BlockIo.runStore_bind, BlockIo.runStore_read _ _ _ _ _ hsz, if_pos h₃, BlockIo.pure_eq,
      BlockIo.runStore_pure]
    simp only
    rw [BlockIo.runStore_read _ _ _ _ _ hsz, BlockIo.pure_eq, BlockIo.runStore_pure]; rfl

theorem mem_indexBlocksUpTo {n j b : Nat} (hj : j < n) (hb : b ∈ d.slotIndexBlocks store j) :
    b ∈ d.indexBlocksUpTo store n :=
  List.mem_flatMap.mpr ⟨j, List.mem_range.mpr hj, hb⟩

variable {d store} {store' : Nat → Block}

/-- The view of the first `n` data blocks reads only their index blocks. -/
theorem blockAt_congr {n : Nat} (h : ∀ b ∈ d.indexBlocksUpTo store n, store' b = store b)
    {i : Nat} (hi : i < n) : d.blockAt store' i = d.blockAt store i := by
  unfold blockAt
  split_ifs with h₁ h₂
  · rfl
  · exact indexEntry_congr (h _ (d.mem_indexBlocksUpTo store (j := inodeDirectCount)
      (by simp only [inodeDirectCount] at h₁ ⊢; omega) (by simp [slotIndexBlocks]))) _
  · have h2 : store' d.indirect2 = store d.indirect2 := h _ (d.mem_indexBlocksUpTo store
      (j := indirect1Bound) (by omega) (by simp [slotIndexBlocks]))
    rw [indexEntry_congr h2]
    have hc : 0 < inodeIndirect1Count := by decide
    generalize ha : (i - indirect1Bound) / inodeIndirect1Count = a
    have hai : indirect1Bound + a * inodeIndirect1Count < n := by
      rw [← ha]
      have := Nat.div_mul_le_self (i - indirect1Bound) inodeIndirect1Count
      omega
    refine indexEntry_congr (h _ (d.mem_indexBlocksUpTo store hai ?_)) _
    simp [slotIndexBlocks, Nat.mul_div_cancel _ hc]

theorem slotIndexBlocks_congr {n : Nat} (h : ∀ b ∈ d.indexBlocksUpTo store n, store' b = store b)
    {i : Nat} (hi : i < n) : d.slotIndexBlocks store' i = d.slotIndexBlocks store i := by
  unfold slotIndexBlocks
  by_cases h₃ : indirect1Bound ≤ i ∧ (i - indirect1Bound) % inodeIndirect1Count = 0
  · rw [if_pos h₃, if_pos h₃, indexEntry_congr (h _ (d.mem_indexBlocksUpTo store
      (j := indirect1Bound) (by omega) (by simp [slotIndexBlocks])))]
  · rw [if_neg h₃, if_neg h₃]

theorem slotBlocks_congr {n : Nat} (h : ∀ b ∈ d.indexBlocksUpTo store n, store' b = store b)
    {i : Nat} (hi : i < n) : d.slotBlocks store' i = d.slotBlocks store i := by
  rw [slotBlocks, slotBlocks, slotIndexBlocks_congr h hi, blockAt_congr h hi]

/-- The blocks of the first `n` data blocks depend only on their index blocks. -/
theorem blocksUpTo_congr {n : Nat} (h : ∀ b ∈ d.indexBlocksUpTo store n, store' b = store b) :
    d.blocksUpTo store' n = d.blocksUpTo store n :=
  List.flatMap_congr fun _ hi ↦ slotBlocks_congr h (List.mem_range.mp hi)

theorem indexBlocksUpTo_congr {n : Nat}
    (h : ∀ b ∈ d.indexBlocksUpTo store n, store' b = store b) :
    d.indexBlocksUpTo store' n = d.indexBlocksUpTo store n :=
  List.flatMap_congr fun _ hi ↦ slotIndexBlocks_congr h (List.mem_range.mp hi)

end DiskInode

/-! ### Writing an index block -/

/-- The ids of an index block: 128 `u32`s. -/
def IndexWords (ws : List Nat) : Prop := ws.length = inodeIndirect1Count ∧ ∀ w ∈ ws, w < 2 ^ 32

/-- The array with index block `b` holding the ids `ws`. -/
def writeIndex (store : Nat → Block) (b : Nat) (ws : List Nat) : Nat → Block :=
  Function.update store b ((store b).write 0 blockSz (unwords 4 ws))

theorem indexWords_indirectBlock (bytes : List UInt8) : IndexWords (indirectBlock bytes) :=
  ⟨length_words _ _ _, words_lt 4 _ bytes⟩

theorem IndexWords.copyFromSlice {ws src : List Nat} (h : IndexWords ws) {pos : Nat}
    (hpos : pos + src.length ≤ ws.length) (hsrc : ∀ w ∈ src, w < 2 ^ 32) :
    IndexWords (copyFromSlice ws pos src) := by
  refine ⟨(length_copyFromSlice hpos).trans h.1, fun w hw ↦ ?_⟩
  simp only [EasyFs.copyFromSlice, List.mem_append] at hw
  rcases hw with (hw | hw) | hw
  · exact h.2 w (List.mem_of_mem_take hw)
  · exact hsrc w hw
  · exact h.2 w (List.mem_of_mem_drop hw)

variable {store : Nat → Block} {b : Nat} {ws : List Nat}

theorem writeIndex_of_ne {c : Nat} (h : c ≠ b) : writeIndex store b ws c = store c :=
  Function.update_noteq h _ _

theorem indirectBlock_writeIndex (hws : IndexWords ws) :
    indirectBlock ((writeIndex store b ws b).slice 0 blockSz) = ws := by
  have hlen : (unwords 4 ws).length = blockSz := by simp [hws.1, inodeIndirect1Count, blockSz]
  rw [writeIndex, Function.update_same, Block.slice_write_self _ _ (by simp) hlen, indirectBlock,
    words_unwords hws.1 hws.2]

theorem indexEntry_writeIndex (hws : IndexWords ws) (c k : Nat) :
    indexEntry (writeIndex store b ws) c k = if c = b then ws.getD k 0 else indexEntry store c k := by
  split_ifs with h
  · rw [h, indexEntry, indirectBlock_writeIndex hws]
  · exact indexEntry_congr (writeIndex_of_ne h) k

/-! ### The doubly indirect part -/

theorem IndexWords.set {ws : List Nat} (h : IndexWords ws) (i : Nat) {x : Nat} (hx : x < 2 ^ 32) :
    IndexWords (ws.set i x) := by
  refine ⟨(List.length_set ..).trans h.1, fun w hw ↦ ?_⟩
  rcases List.mem_or_eq_of_mem_set hw with hw | rfl
  · exact h.2 w hw
  · exact hx

theorem getD_set_of_lt {ws : List Nat} {i : Nat} (h : i < ws.length) (x : Nat) :
    (ws.set i x).getD i 0 = x := by
  simp [h]

theorem writeIndex_def (store : Nat → Block) (b : Nat) (ws : List Nat) :
    Function.update store b ((store b).write 0 blockSz (unwords 4 ws)) = writeIndex store b ws :=
  rfl

/-- What position `j` of the doubly indirect part of an index brings, with `W` the ids the
doubly indirect block holds: the second-level index block at every 128th position, then the
data block. -/
def level2Slot (W : List Nat) (store : Nat → Block) (j : Nat) : List Nat :=
  (if j % inodeIndirect1Count = 0 then [W.getD (j / inodeIndirect1Count) 0] else []) ++
    [indexEntry store (W.getD (j / inodeIndirect1Count) 0) (j % inodeIndirect1Count)]

/-- The blocks of the first `m` positions of the doubly indirect part. -/
def level2Blocks (W : List Nat) (store : Nat → Block) (m : Nat) : List Nat :=
  (List.range m).flatMap (level2Slot W store)

/-- The number of blocks of the first `m` positions of the doubly indirect part. -/
def level2Count (m : Nat) : Nat := m + (m + inodeIndirect1Count - 1) / inodeIndirect1Count

theorem level2Count_succ (p : Nat) :
    level2Count (p + 1) = level2Count p + if p % inodeIndirect1Count = 0 then 2 else 1 := by
  simp only [level2Count, inodeIndirect1Count_eq]
  split_ifs <;> omega

theorem level2Count_mono {p q : Nat} (h : p ≤ q) : level2Count p ≤ level2Count q := by
  simp only [level2Count, inodeIndirect1Count_eq]
  omega

section Level2

variable {W : List Nat} {store : Nat → Block}

theorem level2Blocks_add (m k : Nat) :
    level2Blocks W store (m + k) =
      level2Blocks W store m ++ (List.range k).flatMap fun j ↦ level2Slot W store (m + j) := by
  rw [level2Blocks, List.range_add, List.flatMap_append, List.flatMap_map]; rfl

theorem level2Blocks_succ (m : Nat) :
    level2Blocks W store (m + 1) = level2Blocks W store m ++ level2Slot W store m := by
  rw [level2Blocks_add]; simp [List.range_succ]

theorem length_level2Blocks (m : Nat) : (level2Blocks W store m).length = level2Count m := by
  induction m with
  | zero => rfl
  | succ m ih =>
    rw [level2Blocks_succ, List.length_append, ih, level2Slot, level2Count, level2Count]
    simp only [inodeIndirect1Count_eq]
    split_ifs <;> simp <;> omega

theorem mem_level2Blocks {a m : Nat} (h : a * inodeIndirect1Count < m) :
    W.getD a 0 ∈ level2Blocks W store m := by
  refine List.mem_flatMap.mpr ⟨a * inodeIndirect1Count, List.mem_range.mpr h, ?_⟩
  simp [level2Slot, inodeIndirect1Count_eq]

/-- The second-level index blocks of a duplicate-free doubly indirect part are distinct. -/
theorem getD_ne_of_nodup {m a a' : Nat} (hnd : (level2Blocks W store m).Nodup) (ha : a < a')
    (ha' : a' * inodeIndirect1Count < m) : W.getD a 0 ≠ W.getD a' 0 := by
  have hsplit : level2Blocks W store _ = _ :=
    level2Blocks_add (a' * inodeIndirect1Count) (m - a' * inodeIndirect1Count)
  rw [Nat.add_sub_cancel' ha'.le] at hsplit
  rw [hsplit] at hnd
  have h₁ : W.getD a 0 ∈ level2Blocks W store (a' * inodeIndirect1Count) :=
    mem_level2Blocks (Nat.mul_lt_mul_of_pos_right ha (by decide))
  have h₂ : W.getD a' 0 ∈ (List.range (m - a' * inodeIndirect1Count)).flatMap
      fun j ↦ level2Slot W store (a' * inodeIndirect1Count + j) :=
    List.mem_flatMap.mpr ⟨0, List.mem_range.mpr (by omega), by
      simp [level2Slot, inodeIndirect1Count_eq]⟩
  exact fun heq ↦ (List.nodup_append.mp hnd).2.2 h₁ (heq ▸ h₂)

/-- Rewriting one index block leaves the doubly indirect part unchanged where the entries it
reads keep their ids. -/
theorem level2Blocks_writeIndex {B p : Nat} {ws : List Nat} (hws : IndexWords ws)
    (h : ∀ j < p, W.getD (j / inodeIndirect1Count) 0 = B →
      ws.getD (j % inodeIndirect1Count) 0 = indexEntry store B (j % inodeIndirect1Count)) :
    level2Blocks W (writeIndex store B ws) p = level2Blocks W store p := by
  refine List.flatMap_congr fun j hj ↦ ?_
  simp only [level2Slot, indexEntry_writeIndex hws]
  by_cases hB : W.getD (j / inodeIndirect1Count) 0 = B
  · rw [if_pos hB, h j (List.mem_range.mp hj) hB, hB]
  · rw [if_neg hB]

theorem level2Blocks_congr {W' : List Nat} {p : Nat}
    (h : ∀ a, a * inodeIndirect1Count < p → W'.getD a 0 = W.getD a 0) :
    level2Blocks W' store p = level2Blocks W store p := by
  refine List.flatMap_congr fun j hj ↦ ?_
  have hj' : j / inodeIndirect1Count * inodeIndirect1Count < p :=
    lt_of_le_of_lt (Nat.div_mul_le_self _ _) (List.mem_range.mp hj)
  rw [level2Slot, level2Slot, h _ hj']

theorem level2Blocks_congr_store {store' : Nat → Block} {m : Nat}
    (h : ∀ b ∈ level2Blocks W store m, store' b = store b) :
    level2Blocks W store' m = level2Blocks W store m := by
  refine List.flatMap_congr fun j hj ↦ ?_
  rw [level2Slot, level2Slot, indexEntry_congr (h _ (mem_level2Blocks
    (lt_of_le_of_lt (Nat.div_mul_le_self _ _) (List.mem_range.mp hj))))]

end Level2

/-! ### The index in three runs -/

namespace DiskInode

variable (d : DiskInode) (store : Nat → Block)

/-- The ids the doubly indirect block of an inode holds. -/
def indirect2Words : List Nat := indirectBlock ((store d.indirect2).slice 0 blockSz)

/-- The blocks of the first `n` data blocks that the direct ids address. -/
def directPart (n : Nat) : List Nat := (List.range (min n inodeDirectCount)).map (d.direct.getD · 0)

/-- The indirect index block and the blocks it addresses, among the first `n` data blocks. -/
def indirect1Part (n : Nat) : List Nat :=
  if inodeDirectCount < n then
    d.indirect1 :: (List.range (min n indirect1Bound - inodeDirectCount)).map
      (indexEntry store d.indirect1)
  else []

/-- The doubly indirect index block and its part, among the first `n` data blocks. -/
def indirect2Part (n : Nat) : List Nat :=
  if indirect1Bound < n then d.indirect2 :: level2Blocks (d.indirect2Words store) store (n - indirect1Bound)
  else []

theorem slotBlocks_eq (i : Nat) : d.slotBlocks store i =
    if i < inodeDirectCount then [d.direct.getD i 0]
    else if i < indirect1Bound then
      (if i = inodeDirectCount then [d.indirect1] else []) ++
        [indexEntry store d.indirect1 (i - inodeDirectCount)]
    else (if i = indirect1Bound then [d.indirect2] else []) ++
      level2Slot (d.indirect2Words store) store (i - indirect1Bound) := by
  simp only [slotBlocks, slotIndexBlocks, blockAt, level2Slot, indirect2Words, inodeDirectCount,
    indirect1Bound, inodeIndirect1Count, blockSz]
  rcases Nat.lt_or_ge i 156 with h | h <;> simp (disch := omega) only [if_neg, if_pos] <;>
    split_ifs <;> first | omega | rfl

theorem directPart_succ (n : Nat) : d.directPart (n + 1) =
    d.directPart n ++ if n < inodeDirectCount then [d.direct.getD n 0] else [] := by
  unfold directPart
  split_ifs with h
  · rw [Nat.min_eq_left (Nat.succ_le_of_lt h), Nat.min_eq_left h.le, List.range_succ,
      List.map_append]; rfl
  · rw [Nat.min_eq_right (by omega), Nat.min_eq_right (by omega), List.append_nil]

theorem indirect1Part_succ (n : Nat) : d.indirect1Part store (n + 1) =
    d.indirect1Part store n ++
      if inodeDirectCount ≤ n ∧ n < indirect1Bound then
        (if n = inodeDirectCount then [d.indirect1] else []) ++
          [indexEntry store d.indirect1 (n - inodeDirectCount)]
      else [] := by
  simp only [indirect1Part, inodeDirectCount, indirect1Bound, inodeIndirect1Count, blockSz] at *
  by_cases h₁ : n < 28
  · rw [if_neg (by omega), if_neg (by omega), if_neg (by omega)]; rfl
  by_cases h₂ : n = 28
  · subst h₂; simp [List.range_succ]
  by_cases h₃ : n < 156
  · rw [if_pos (by omega), if_pos (by omega), if_pos (by omega), if_neg h₂,
      show min (n + 1) 156 - 28 = (min n 156 - 28) + 1 by omega, List.range_succ, List.map_append,
      show min n 156 - 28 = n - 28 by omega]
    rfl
  · rw [if_pos (by omega), if_pos (by omega), if_neg (by omega), Nat.min_eq_right (by omega),
      Nat.min_eq_right (by omega), List.append_nil]

theorem indirect2Part_succ (n : Nat) : d.indirect2Part store (n + 1) =
    d.indirect2Part store n ++
      if indirect1Bound ≤ n then
        (if n = indirect1Bound then [d.indirect2] else []) ++
          level2Slot (d.indirect2Words store) store (n - indirect1Bound)
      else [] := by
  unfold indirect2Part
  by_cases h₁ : indirect1Bound ≤ n
  · rw [if_pos (by omega), if_pos h₁, Nat.sub_add_comm h₁, level2Blocks_succ]
    by_cases h₂ : n = indirect1Bound
    · rw [if_neg (by omega), if_pos h₂]
      simp [h₂, level2Blocks]
    · rw [if_pos (by omega), if_neg h₂]; simp
  · rw [if_neg (by omega), if_neg (by omega), if_neg h₁]; simp

/-- The blocks of the first `n` data blocks in three runs: the direct ids, the indirect index
block with the blocks it addresses, and the doubly indirect block with its part. -/
theorem blocksUpTo_eq_parts (n : Nat) :
    d.blocksUpTo store n = d.directPart n ++ d.indirect1Part store n ++ d.indirect2Part store n := by
  induction n with
  | zero => rfl
  | succ n ih =>
    rw [blocksUpTo_succ, ih, slotBlocks_eq, directPart_succ, indirect1Part_succ, indirect2Part_succ]
    by_cases h₁ : n < inodeDirectCount
    · have h₂ : d.indirect1Part store n = [] := if_neg (by omega)
      have h₃ : d.indirect2Part store n = [] := if_neg (by simp [indirect1Bound] at *; omega)
      simp [h₁, h₂, h₃, show ¬ indirect1Bound ≤ n by simp [indirect1Bound] at *; omega]
    by_cases h₄ : n < indirect1Bound
    · have h₃ : d.indirect2Part store n = [] := if_neg (by omega)
      simp [h₁, h₃, h₄, Nat.le_of_not_lt h₁]
    · simp [h₁, h₄, Nat.le_of_not_lt h₄, show ¬ n < inodeDirectCount from h₁]

/-- The length of `directPart`. -/
def directPartLen (n : Nat) : Nat := min n inodeDirectCount

/-- The length of `indirect1Part`. -/
def indirect1PartLen (n : Nat) : Nat :=
  if inodeDirectCount < n then 1 + (min n indirect1Bound - inodeDirectCount) else 0

/-- The length of `indirect2Part`. -/
def indirect2PartLen (n : Nat) : Nat :=
  if indirect1Bound < n then 1 + level2Count (n - indirect1Bound) else 0

theorem length_indirect1Part (n : Nat) :
    (d.indirect1Part store n).length = indirect1PartLen n := by
  unfold indirect1Part indirect1PartLen
  split_ifs <;> simp [Nat.add_comm]

theorem length_indirect2Part (n : Nat) :
    (d.indirect2Part store n).length = indirect2PartLen n := by
  unfold indirect2Part indirect2PartLen
  split_ifs <;> simp [length_level2Blocks, Nat.add_comm]

theorem indirect1PartLen_mono {n n' : Nat} (h : n ≤ n') :
    indirect1PartLen n ≤ indirect1PartLen n' := by
  unfold indirect1PartLen
  split_ifs <;> omega

theorem indirect2PartLen_mono {n n' : Nat} (h : n ≤ n') :
    indirect2PartLen n ≤ indirect2PartLen n' := by
  simp only [indirect2PartLen, level2Count, inodeIndirect1Count_eq]
  split_ifs <;> omega

/-- `total_blocks` counts the three runs of the index. -/
theorem totalBlocks_eq_partLen (size : Nat) : totalBlocks size =
    directPartLen (dataBlocksOf size) + indirect1PartLen (dataBlocksOf size) +
      indirect2PartLen (dataBlocksOf size) := by
  simp only [totalBlocks, directPartLen, indirect1PartLen, indirect2PartLen, level2Count,
    indirect1Bound, inodeDirectCount, inodeIndirect1Count_eq]
  split_ifs <;> omega

section Congr

variable {d : DiskInode} {store store' : Nat → Block}

theorem indirect1Part_congr (h : store' d.indirect1 = store d.indirect1) (n : Nat) :
    d.indirect1Part store' n = d.indirect1Part store n := by
  rw [indirect1Part, indirect1Part, funext (indexEntry_congr h)]

theorem indirect2Part_congr {n : Nat} (h : ∀ b ∈ d.indirect2Part store n, store' b = store b) :
    d.indirect2Part store' n = d.indirect2Part store n := by
  unfold indirect2Part at h ⊢
  split_ifs at h ⊢ with hn
  · have h2 : d.indirect2Words store' = d.indirect2Words store := by
      rw [indirect2Words, indirect2Words, h _ (List.mem_cons_self _ _)]
    rw [h2, level2Blocks_congr_store fun b hb ↦ h b (List.mem_cons_of_mem _ hb)]
  · rfl

theorem indirect1Part_eq_nil {n : Nat} (h : n ≤ inodeDirectCount) : d.indirect1Part store n = [] :=
  if_neg (by omega)

theorem indirect2Part_eq_nil {n : Nat} (h : n ≤ indirect1Bound) : d.indirect2Part store n = [] :=
  if_neg (by omega)

theorem indirect2_mem_indirect2Part {n : Nat} (h : indirect1Bound < n) :
    d.indirect2 ∈ d.indirect2Part store n := by
  rw [indirect2Part, if_pos h]; exact List.mem_cons_self _ _

theorem indexEntry_mem_indirect2Part {n a : Nat} (h : indirect1Bound + a * inodeIndirect1Count < n) :
    indexEntry store d.indirect2 a ∈ d.indirect2Part store n := by
  rw [indirect2Part, if_pos (by omega)]
  exact List.mem_cons_of_mem _ (mem_level2Blocks (by omega))

theorem indirect1_mem_indexBlocksUpTo {n : Nat} (h : inodeDirectCount < n) :
    d.indirect1 ∈ d.indexBlocksUpTo store n :=
  d.mem_indexBlocksUpTo store h (by simp [slotIndexBlocks])

theorem indirect2_mem_indexBlocksUpTo {n : Nat} (h : indirect1Bound < n) :
    d.indirect2 ∈ d.indexBlocksUpTo store n :=
  d.mem_indexBlocksUpTo store h (by simp [slotIndexBlocks])

theorem indexEntry_mem_indexBlocksUpTo {n a : Nat}
    (h : indirect1Bound + a * inodeIndirect1Count < n) :
    indexEntry store d.indirect2 a ∈ d.indexBlocksUpTo store n := by
  refine d.mem_indexBlocksUpTo store h ?_
  simp [slotIndexBlocks, Nat.mul_div_cancel _ (show 0 < inodeIndirect1Count by decide)]

end Congr

end DiskInode

end Rcore.EasyFs
