import Rcore.EasyFs.InodeIndex

/-!
# Clearing an inode

`DiskInode::clear_size` walks the index the way `get_block_id` reads it and collects every
block: the direct ids, the indirect index block and its entries, the doubly indirect block and,
for each second-level index block, the block and its entries. `runStore_clearSize` says that the
list it returns is exactly `addressed`, the blocks in index order, and that it writes nothing:
each of its `modify` calls hands back the bytes it was given.
-/

set_option autoImplicit false
set_option relaxedAutoImplicit false

namespace Rcore.EasyFs

/-- A `modify` whose closure hands back the bytes it was given, and writes nothing else, writes
nothing. -/
theorem runStore_modify_keep {α : Type} (b : Nat) (body : List UInt8 → BlockIo (List UInt8 × α))
    (store : Nat → Block) {a : α}
    (h : (body ((store b).slice 0 blockSz)).runStore store =
      .ok (((store b).slice 0 blockSz, a), store)) :
    (BlockIo.modify b 0 blockSz body).runStore store = .ok (a, store) := by
  rw [BlockIo.runStore_modify _ _ _ _ _ (by omega), h]
  simp

/-- The reading `modify` of `clear_size`: its closure hands back the bytes with a value. -/
theorem runStore_modify_pure {α : Type} (b : Nat) (f : List UInt8 → α) (store : Nat → Block) :
    (BlockIo.modify b 0 blockSz fun bytes ↦ BlockIo.pure (bytes, f bytes)).runStore store =
      .ok (f ((store b).slice 0 blockSz), store) :=
  runStore_modify_keep b _ store (BlockIo.runStore_pure _ _)

/-- An index block read through `index_entry`. -/
theorem indirectBlock_eq_map (store : Nat → Block) (b : Nat) :
    indirectBlock ((store b).slice 0 blockSz) =
      (List.range inodeIndirect1Count).map (indexEntry store b) := by
  refine List.ext_getElem (by simp [indirectBlock]) fun k hk _ ↦ ?_
  simp only [indirectBlock, length_words] at hk
  rw [List.getElem_map, List.getElem_range, indexEntry, List.getD_eq_getElem _ _ (by
    simpa [indirectBlock] using hk)]

namespace DiskInode

/-- The loops of `clear_size` over the slots `[currentBlocks, bound)`: they collect the ids in
order and leave zeros or the old ids. -/
theorem drainSlots_spec (bound : Nat) (slots : List Nat) (currentBlocks : Nat) (v : List Nat) :
    (drainSlots bound slots currentBlocks v).2 =
        v ++ (List.range' currentBlocks (bound - currentBlocks)).map (slots.getD · 0) ∧
      (drainSlots bound slots currentBlocks v).1.length = slots.length ∧
      ∀ x ∈ (drainSlots bound slots currentBlocks v).1, x = 0 ∨ x ∈ slots := by
  rw [drainSlots]
  split_ifs with h
  · obtain ⟨h₁, h₂, h₃⟩ := drainSlots_spec bound (slots.set currentBlocks 0) (currentBlocks + 1)
      (v ++ [slots.getD currentBlocks 0])
    refine ⟨?_, by rw [h₂, List.length_set], fun x hx ↦ ?_⟩
    · rw [h₁, show bound - currentBlocks = bound - (currentBlocks + 1) + 1 by omega,
        List.range'_succ, List.map_cons, List.append_assoc, List.singleton_append]
      congr 2
      refine List.map_congr_left fun j hj ↦ ?_
      rw [List.mem_range'_1] at hj
      simp only [List.getD_eq_getElem?_getD, List.getElem?_set_ne (show currentBlocks ≠ j by omega)]
    · rcases h₃ x hx with h | h
      · exact .inl h
      · exact (List.mem_or_eq_of_mem_set h).symm.imp id id
  · exact ⟨by rw [Nat.sub_eq_zero_of_le (by omega)]; simp, rfl, fun x hx ↦ .inr hx⟩
termination_by bound - currentBlocks

/-- The loop over the full second-level index blocks: each block, then its entries. -/
theorem runStore_clearIndirect1Blocks (store : Nat → Block) : ∀ (entries v : List Nat),
    (clearIndirect1Blocks entries v).runStore store =
      .ok (v ++ entries.flatMap fun e ↦ e :: indirectBlock ((store e).slice 0 blockSz), store)
  | [], v => by simp [clearIndirect1Blocks]
  | e :: es, v => by
    simp only [clearIndirect1Blocks, BlockIo.bind_eq, BlockIo.pure_eq]
    rw [BlockIo.runStore_bind, runStore_modify_pure]
    simp only
    rw [runStore_clearIndirect1Blocks store es]
    simp

end DiskInode

section Level2

variable {W : List Nat} {store : Nat → Block}

/-- The first `r` positions after `a` full second-level index blocks: the next one, then its
first `r` entries. -/
theorem flatMap_level2Slot_chunk (a : Nat) {r : Nat} (hr : r ≤ inodeIndirect1Count) :
    ((List.range r).flatMap fun j ↦ level2Slot W store (a * inodeIndirect1Count + j)) =
      if 0 < r then W.getD a 0 :: (List.range r).map (indexEntry store (W.getD a 0)) else [] := by
  induction r with
  | zero => rfl
  | succ r ih =>
    rw [inodeIndirect1Count_eq] at hr
    have hdiv : (a * inodeIndirect1Count + r) / inodeIndirect1Count = a := by
      rw [inodeIndirect1Count_eq]; omega
    have hmod : (a * inodeIndirect1Count + r) % inodeIndirect1Count = r := by
      rw [inodeIndirect1Count_eq]; omega
    rw [List.range_succ, List.flatMap_append, ih (by rw [inodeIndirect1Count_eq]; omega),
      List.flatMap_singleton, level2Slot, hdiv, hmod, if_pos (Nat.succ_pos r)]
    rcases Nat.eq_zero_or_pos r with rfl | hr₀
    · rfl
    · rw [if_pos hr₀, if_neg (by omega), List.map_append]; rfl

/-- The doubly indirect part grouped by second-level index block, the way `clear_size` walks
it: each full one with its entries, then the next with its first `r` entries. -/
theorem level2Blocks_mul_add (a : Nat) {r : Nat} (hr : r < inodeIndirect1Count) :
    level2Blocks W store (a * inodeIndirect1Count + r) =
      ((List.range a).flatMap fun a' ↦ W.getD a' 0 ::
          (List.range inodeIndirect1Count).map (indexEntry store (W.getD a' 0))) ++
        if 0 < r then W.getD a 0 :: (List.range r).map (indexEntry store (W.getD a 0)) else [] := by
  rw [level2Blocks_add, flatMap_level2Slot_chunk a hr.le]
  congr 1
  induction a with
  | zero => rfl
  | succ a ih =>
    rw [Nat.succ_mul, level2Blocks_add, ih, flatMap_level2Slot_chunk a le_rfl, if_pos (by decide),
      List.range_succ, List.flatMap_append, List.flatMap_singleton]

/-- The doubly indirect part as the loops of `clear_size` collect it from the ids `W` of the
doubly indirect block. -/
theorem level2Blocks_eq_clear (hW : W.length = inodeIndirect1Count) {m : Nat}
    (hm : m ≤ inodeIndirect1Count * inodeIndirect1Count) :
    ((W.take (m / inodeIndirect1Count)).flatMap fun e ↦
        e :: indirectBlock ((store e).slice 0 blockSz)) ++
      (if m % inodeIndirect1Count > 0 then
        [W.getD (m / inodeIndirect1Count) 0] ++ (indirectBlock ((store (W.getD
          (m / inodeIndirect1Count) 0)).slice 0 blockSz)).take (m % inodeIndirect1Count)
      else []) = level2Blocks W store m := by
  have hlt : m % inodeIndirect1Count < inodeIndirect1Count := Nat.mod_lt _ (by decide)
  have hdiv : m / inodeIndirect1Count ≤ W.length := by
    rw [hW, inodeIndirect1Count_eq] at *; omega
  have htake : W.take (m / inodeIndirect1Count) =
      (List.range (m / inodeIndirect1Count)).map (W.getD · 0) := by
    refine List.ext_getElem ?_ fun i h₁ h₂ ↦ ?_
    · rw [List.length_take, List.length_map, List.length_range, Nat.min_eq_left hdiv]
    · rw [List.getElem_take, List.getElem_map, List.getElem_range, List.getD_eq_getElem]
  conv_rhs => rw [← Nat.div_add_mod' m inodeIndirect1Count, level2Blocks_mul_add _ hlt]
  rw [htake, List.flatMap_map]
  simp only [indirectBlock_eq_map, ← List.map_take, List.take_range, Nat.min_eq_left hlt.le]
  rfl

end Level2

namespace DiskInode

variable (d : DiskInode) (store : Nat → Block)

/-- `DiskInode::clear_size` on a valid record within the largest size: it returns a valid
record of size zero and of the same type, together with every block the inode addressed in
index order, and it writes no block. -/
theorem runStore_clearSize (hd : d.Valid) (hmax : d.dataBlocks ≤ maxDataBlocks) :
    ∃ d', d.clearSize.runStore store = .ok ((d', d.addressed store), store) ∧ d'.Valid ∧
      d'.size = 0 ∧ d'.type_ = d.type_ := by
  obtain ⟨hv, hlen, hmem⟩ := drainSlots_spec (min d.dataBlocks inodeDirectCount) d.direct 0 []
  have hvalid : ∀ (i1 i2 : Nat), i1 < 2 ^ 32 → i2 < 2 ^ 32 →
      ({ d with size := 0
                direct := (drainSlots (min d.dataBlocks inodeDirectCount) d.direct 0 []).1
                indirect1 := i1
                indirect2 := i2 } : DiskInode).Valid := fun i1 i2 h1 h2 ↦
    ⟨Nat.two_pow_pos _, by rw [hlen]; exact hd.2.1, fun x hx ↦ by
      rcases hmem x hx with rfl | hx
      exacts [by decide, hd.2.2.1 x hx], h1, h2⟩
  have hdirect : (drainSlots (min d.dataBlocks inodeDirectCount) d.direct 0 []).2 =
      d.directPart d.dataBlocks := by
    rw [hv, Nat.sub_zero, List.nil_append, ← List.range_eq_range']; rfl
  rw [addressed, blocksUpTo_eq_parts, ← hdirect]
  unfold clearSize
  simp only [BlockIo.pure_eq]
  by_cases h₁ : d.dataBlocks > inodeDirectCount
  swap
  · rw [if_neg h₁]
    refine ⟨_, ?_, hvalid _ _ hd.2.2.2.1 hd.2.2.2.2, rfl, rfl⟩
    rw [BlockIo.runStore_pure, indirect1Part_eq_nil (by omega),
      indirect2Part_eq_nil (by simp only [indirect1Bound] at *; omega)]
    simp
  rw [if_pos h₁]
  simp only [BlockIo.bind_eq, BlockIo.pure_eq]
  rw [BlockIo.runStore_bind, runStore_modify_pure]
  obtain ⟨hv₁, -, -⟩ := drainSlots_spec (min (d.dataBlocks - inodeDirectCount) inodeIndirect1Count)
    (indirectBlock ((store d.indirect1).slice 0 blockSz)) 0
    ((drainSlots (min d.dataBlocks inodeDirectCount) d.direct 0 []).2 ++ [d.indirect1])
  have hpart₁ : (drainSlots (min (d.dataBlocks - inodeDirectCount) inodeIndirect1Count)
      (indirectBlock ((store d.indirect1).slice 0 blockSz)) 0
      ((drainSlots (min d.dataBlocks inodeDirectCount) d.direct 0 []).2 ++ [d.indirect1])).2 =
      (drainSlots (min d.dataBlocks inodeDirectCount) d.direct 0 []).2 ++
        d.indirect1Part store d.dataBlocks := by
    rw [hv₁, indirect1Part, if_pos h₁, Nat.sub_zero, ← List.range_eq_range',
      show min (d.dataBlocks - inodeDirectCount) inodeIndirect1Count =
        min d.dataBlocks indirect1Bound - inodeDirectCount by
          simp only [indirect1Bound] at *; omega]
    simp only [List.append_assoc, List.singleton_append]
    rfl
  simp only
  rw [hpart₁]
  by_cases h₂ : d.dataBlocks - inodeDirectCount > inodeIndirect1Count
  swap
  · rw [if_neg h₂, BlockIo.runStore_pure, indirect2Part_eq_nil (by simp only [indirect1Bound]; omega)]
    exact ⟨_, by simp, hvalid _ _ (Nat.two_pow_pos _) hd.2.2.2.2, rfl, rfl⟩
  have h₃ : d.dataBlocks - inodeDirectCount - inodeIndirect1Count ≤
      inodeIndirect1Count * inodeIndirect1Count := by
    simp only [maxDataBlocks, indirect1Bound] at hmax; omega
  rw [if_pos h₂, if_pos h₃]
  refine ⟨_, ?_, hvalid _ _ (Nat.two_pow_pos _) (Nat.two_pow_pos _), rfl, rfl⟩
  have hW : (d.indirect2Words store).length = inodeIndirect1Count := by
    simp [indirect2Words, indirectBlock]
  have hpart₂ := @level2Blocks_eq_clear _ store hW _ h₃
  rw [indirect2Part, if_pos (by simp only [indirect1Bound]; omega), BlockIo.runStore_bind,
    BlockIo.runStore_modify _ _ _ _ _ (by omega), BlockIo.runStore_bind,
    runStore_clearIndirect1Blocks]
  simp only
  split_ifs with h₄
  · rw [if_pos h₄] at hpart₂
    rw [BlockIo.runStore_bind, runStore_modify_pure]
    simp only [BlockIo.runStore_pure, Block.write_slice, Function.update_eq_self]
    rw [show d.dataBlocks - indirect1Bound =
      d.dataBlocks - inodeDirectCount - inodeIndirect1Count by simp only [indirect1Bound]; omega,
      ← hpart₂]
    simp [indirect2Words]
  · rw [if_neg h₄] at hpart₂
    simp only [BlockIo.runStore_bind, BlockIo.runStore_pure, Block.write_slice,
      Function.update_eq_self]
    rw [show d.dataBlocks - indirect1Bound =
      d.dataBlocks - inodeDirectCount - inodeIndirect1Count by simp only [indirect1Bound]; omega,
      ← hpart₂]
    simp [indirect2Words]
end DiskInode

end Rcore.EasyFs
