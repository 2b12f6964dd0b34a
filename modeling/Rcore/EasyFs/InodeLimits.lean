import Rcore.EasyFs.InodeGrow

/-!
# What makes a disk inode operation panic

An inode addresses at most `28 + 128 + 128 * 128` data blocks, and the code has no check of its
own for a size past that: the operations run into the bounds of the doubly indirect index block.
`DiskInode::get_block_id` of a block past the last one indexes the doubly indirect block out of
bounds (`runStore_getBlockId_of_le`), and the loop of `DiskInode::increase_size` over that block
does the same once it has filled its 128 second-level index blocks (`fillIndirect2_ok`).

Read the other way, these are facts about every run that returns: `DiskInode::write_at` that
returns started at or below the size and inside the largest inode (`writeAt_ok`), and
`DiskInode::increase_size` that returns grew the inode to at most the largest size
(`increaseSize_ok`). The filesystem needs them to know that every operation that returns kept
its inodes within their index.
-/

set_option autoImplicit false
set_option relaxedAutoImplicit false

namespace Rcore.EasyFs

namespace BlockIo

/-- A `modify` that returns ran its body, and wrote the new image of its bytes. -/
theorem runStore_modify_eq_ok {α : Type} {b offset size : Nat}
    {body : List UInt8 → BlockIo (List UInt8 × α)} {store store' : Nat → Block} {a : α}
    (h : (BlockIo.modify b offset size body).runStore store = .ok (a, store')) :
    ∃ bytes store₁, (body ((store b).slice offset size)).runStore store = .ok ((bytes, a), store₁) ∧
      store' = Function.update store₁ b ((store₁ b).write offset size bytes) := by
  rw [runStore] at h
  split_ifs at h
  split at h
  · cases h
    exact ⟨_, _, ‹_›, rfl⟩
  · cases h

end BlockIo

namespace DiskInode

/-- `DiskInode::get_block_id` past the largest inode panics: its index into the doubly indirect
block is out of bounds. -/
theorem runStore_getBlockId_of_le (d : DiskInode) (store : Nat → Block) {i : Nat}
    (hi : maxDataBlocks ≤ i) :
    (d.getBlockId i).runStore store = .error (indexOutOfBoundsMsg inodeIndirect1Count
      ((i - indirect1Bound) / inodeIndirect1Count)) := by
  have e := inodeIndirect1Count_eq
  have hM := maxDataBlocks_eq
  have hB : indirect1Bound = 156 := rfl
  rw [getBlockId, if_neg (by simp only [inodeDirectCount]; omega), if_neg (by omega)]
  simp only [BlockIo.bind_eq]
  rw [BlockIo.runStore_bind, BlockIo.runStore_read _ _ _ _ _ (by omega),
    if_neg (by rw [e]; omega), BlockIo.runStore_panic]

/-- A `DiskInode::write_at` that returns started at or below the size, inside the largest
inode. -/
theorem writeAt_ok {d : DiskInode} {offset : Nat} {buf : List UInt8} {store store' : Nat → Block}
    {n : Nat} (h : (d.writeAt offset buf).runStore store = .ok (n, store')) :
    offset ≤ d.size ∧ offset / blockSz < maxDataBlocks := by
  rw [writeAt] at h
  split_ifs at h with hoff
  · refine ⟨le_trans hoff (min_le_right _ _), Nat.lt_of_not_le fun hle ↦ ?_⟩
    rw [writeAtLoop] at h
    simp only [BlockIo.bind_eq] at h
    rw [BlockIo.runStore_bind, runStore_getBlockId_of_le d store hle] at h
    cases h
  · cases h

/-- The loops over the direct ids and the indirect index block end at their bound. -/
theorem fillSlots_ok {bound : Nat} (slots : List Nat) (cur : Nat) (L : List Nat)
    {r : List Nat × Nat × List Nat} {store store' : Nat → Block}
    (h : (fillSlots bound slots cur L).runStore store = .ok (r, store')) : r.2.1 = max cur bound := by
  rw [fillSlots] at h
  split_ifs at h with hc
  · obtain ⟨⟨b, L'⟩, s₁, -, h₂⟩ := BlockIo.runStore_bind_eq_ok h
    rw [fillSlots_ok _ _ _ h₂]
    omega
  · cases h
    show cur = max cur bound
    omega
termination_by bound - cur

/-- The loop over the doubly indirect block, from position `p` to `q`, returns only when every
position it passed is inside the 128 second-level index blocks. -/
theorem fillIndirect2_ok {q : Nat} : ∀ (k : Nat) {p : Nat} {W L : List Nat}
    {r : List Nat × List Nat} {store store' : Nat → Block}, q - p = k →
    (fillIndirect2 (q / inodeIndirect1Count) (q % inodeIndirect1Count) W
      (p / inodeIndirect1Count) (p % inodeIndirect1Count) L).runStore store = .ok (r, store') →
    q ≤ inodeIndirect1Count * inodeIndirect1Count ∨ q ≤ p
  | 0, _, _, _, _, _, _, hk, _ => .inr (by omega)
  | k + 1, p, W, L, r, store, store', hk, h => by
    have e := inodeIndirect1Count_eq
    rw [fillIndirect2, if_pos (by rw [e]; omega)] at h
    by_cases hp : p / inodeIndirect1Count < inodeIndirect1Count
    swap
    · rw [if_neg hp] at h
      cases h
    rw [if_pos hp, if_pos (Nat.mod_lt _ (by rw [e]; decide))] at h
    dsimp only at h
    -- the tail of a round: the data block into its slot, then the next position
    have hround : ∀ {W₁ L₁ : List Nat} {s₁ : Nat → Block},
        (BlockIo.bind (BlockIo.modify (W₁.getD (p / inodeIndirect1Count) 0) 0 blockSz
          fun indirect1 ↦ BlockIo.bind (nextBlock L₁) fun x ↦
            BlockIo.pure (unwords 4 ((indirectBlock indirect1).set (p % inodeIndirect1Count) x.1),
              x.2))
          fun L₂ ↦ if p % inodeIndirect1Count + 1 = inodeIndirect1Count then
            fillIndirect2 (q / inodeIndirect1Count) (q % inodeIndirect1Count) W₁
              (p / inodeIndirect1Count + 1) 0 L₂
          else fillIndirect2 (q / inodeIndirect1Count) (q % inodeIndirect1Count) W₁
            (p / inodeIndirect1Count) (p % inodeIndirect1Count + 1) L₂).runStore s₁ =
          .ok (r, store') →
        q ≤ inodeIndirect1Count * inodeIndirect1Count ∨ q ≤ p := fun h₂ ↦ by
      obtain ⟨L₂, s₂, -, h₃⟩ := BlockIo.runStore_bind_eq_ok h₂
      rw [fillIndirect2_next] at h₃
      rcases fillIndirect2_ok k (by omega) h₃ with h₄ | h₄
      · exact .inl h₄
      · rw [e] at hp ⊢
        exact .inl (by omega)
    by_cases h0 : p % inodeIndirect1Count = 0
    · rw [if_pos h0] at h
      obtain ⟨⟨b, L₁⟩, s₁, -, h₂⟩ := BlockIo.runStore_bind_eq_ok h
      obtain ⟨⟨W₁, L₂⟩, s₂, -, h₃⟩ := BlockIo.runStore_bind_eq_ok h₂
      exact hround h₃
    · rw [if_neg h0] at h
      obtain ⟨⟨W₁, L₁⟩, s₁, -, h₂⟩ := BlockIo.runStore_bind_eq_ok h
      exact hround h₂

/-- `increase_size` from `// alloc indirect2` on returns only for at most `128 + 128 * 128`
ids behind the direct ones. -/
theorem increaseIndirect2_ok (d : DiskInode) {c t : Nat} {L : List Nat} {r : DiskInode}
    {store store' : Nat → Block}
    (hc : c ≤ inodeIndirect1Count + inodeIndirect1Count * inodeIndirect1Count)
    (h : (d.increaseIndirect2 c t L).runStore store = .ok (r, store')) :
    t ≤ inodeIndirect1Count + inodeIndirect1Count * inodeIndirect1Count := by
  rw [increaseIndirect2] at h
  by_cases ht : t > inodeIndirect1Count
  swap
  · omega
  rw [if_pos ht] at h
  dsimp only at h
  -- what follows the allocation of the doubly indirect block: its loop, inside its `modify`
  have tail : ∀ (y : DiskInode × List Nat) (s₁ : Nat → Block),
      (do
        BlockIo.modify y.1.indirect2 0 blockSz fun indirect2 ↦ do
          let x ← fillIndirect2 ((t - inodeIndirect1Count) / inodeIndirect1Count)
            ((t - inodeIndirect1Count) % inodeIndirect1Count) (indirectBlock indirect2)
            ((c - inodeIndirect1Count) / inodeIndirect1Count)
            ((c - inodeIndirect1Count) % inodeIndirect1Count) y.2
          pure (unwords 4 x.1, ())
        pure y.1 : BlockIo DiskInode).runStore s₁ = .ok (r, store') →
      t ≤ inodeIndirect1Count + inodeIndirect1Count * inodeIndirect1Count := fun y s₁ h₁ ↦ by
    obtain ⟨u, s₂, h₂, -⟩ := BlockIo.runStore_bind_eq_ok h₁
    obtain ⟨bytes, s₃, h₃, -⟩ := BlockIo.runStore_modify_eq_ok h₂
    obtain ⟨x, s₄, h₄, -⟩ := BlockIo.runStore_bind_eq_ok h₃
    rcases fillIndirect2_ok _ rfl h₄ with h₅ | h₅ <;> omega
  split_ifs at h
  · obtain ⟨x, s₁, -, h₁⟩ := BlockIo.runStore_bind_eq_ok h
    obtain ⟨y, s₂, -, h₂⟩ := BlockIo.runStore_bind_eq_ok h₁
    exact tail y s₂ h₂
  · obtain ⟨y, s₁, -, h₁⟩ := BlockIo.runStore_bind_eq_ok h
    exact tail y s₁ h₁

/-- `increase_size` from `// alloc indirect1` on returns only for at most the largest number of
data blocks. -/
theorem increaseIndirect1_ok (d : DiskInode) {c t : Nat} {L : List Nat} {r : DiskInode}
    {store store' : Nat → Block} (hc : c ≤ maxDataBlocks)
    (h : (d.increaseIndirect1 c t L).runStore store = .ok (r, store')) : t ≤ maxDataBlocks := by
  have e := inodeIndirect1Count_eq
  have hM := maxDataBlocks_eq
  have h28 : inodeDirectCount = 28 := rfl
  rw [increaseIndirect1] at h
  by_cases ht : t > inodeDirectCount
  swap
  · omega
  rw [if_pos ht] at h
  dsimp only at h
  -- the loop over the indirect block ends at `min (t - 28) 128`, then the doubly indirect part
  have tail : ∀ (y : DiskInode × List Nat) (s₁ : Nat → Block),
      (do
        let filled ← fillIndirect1 y.1.indirect1 (c - inodeDirectCount) (t - inodeDirectCount) y.2
        y.1.increaseIndirect2 filled.1 (t - inodeDirectCount) filled.2 : BlockIo DiskInode).runStore
          s₁ = .ok (r, store') → t ≤ maxDataBlocks := fun y s₁ h₁ ↦ by
    obtain ⟨⟨c₁, L₁⟩, s₂, h₂, h₃⟩ := BlockIo.runStore_bind_eq_ok h₁
    obtain ⟨bytes, s₃, h₄, -⟩ := BlockIo.runStore_modify_eq_ok h₂
    obtain ⟨⟨W, c₂, L₂⟩, s₄, h₅, h₆⟩ := BlockIo.runStore_bind_eq_ok h₄
    have hc₂ := fillSlots_ok _ _ _ h₅
    simp only [BlockIo.pure_eq, BlockIo.runStore_pure, Except.ok.injEq, Prod.mk.injEq] at h₆ hc₂
    obtain ⟨⟨-, rfl, -⟩, -⟩ := h₆
    have := increaseIndirect2_ok _ (by rw [hc₂, e]; omega) h₃
    rw [e] at this
    omega
  split_ifs at h
  · obtain ⟨x, s₁, -, h₁⟩ := BlockIo.runStore_bind_eq_ok h
    obtain ⟨y, s₂, -, h₂⟩ := BlockIo.runStore_bind_eq_ok h₁
    exact tail y s₂ h₂
  · obtain ⟨y, s₁, -, h₁⟩ := BlockIo.runStore_bind_eq_ok h
    exact tail y s₁ h₁

/-- `DiskInode::increase_size` returns only for a size of at most the largest number of data
blocks. -/
theorem increaseSize_ok {d : DiskInode} (hd : d.dataBlocks ≤ maxDataBlocks) {newSize : Nat}
    {L : List Nat} {r : DiskInode} {store store' : Nat → Block}
    (h : (d.increaseSize newSize L).runStore store = .ok (r, store')) :
    dataBlocksOf newSize ≤ maxDataBlocks := by
  have hM := maxDataBlocks_eq
  rw [increaseSize] at h
  simp only [BlockIo.bind_eq] at h
  obtain ⟨⟨direct, c, L'⟩, s₁, h₁, h₂⟩ := BlockIo.runStore_bind_eq_ok h
  have hc := fillSlots_ok _ _ _ h₁
  simp only at hc
  exact increaseIndirect1_ok _ (by rw [hc]; simp only [inodeDirectCount] at *; omega) h₂

end DiskInode

end Rcore.EasyFs
