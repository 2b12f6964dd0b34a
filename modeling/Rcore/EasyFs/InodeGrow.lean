import Rcore.EasyFs.InodeIndex

/-!
# Growing an inode

`DiskInode::increase_size` wires the fresh blocks `new_blocks` into the index of an inode in
three phases: the direct ids, the indirect index block, and the doubly indirect block with its
second-level index blocks. Each loop is specified in closed form (`runStore_fillSlots`,
`runStore_fillIndirect2`), each phase by the run of the index it extends, and the whole call by
`runStore_increaseSize`: the inode then addresses the blocks it addressed before followed by
`new_blocks`, in order, and only its own index blocks were written.
-/

set_option autoImplicit false
set_option relaxedAutoImplicit false

namespace Rcore.EasyFs

theorem copyFromSlice_nil {α : Type} (l : List α) (pos : Nat) : copyFromSlice l pos [] = l := by
  simp [copyFromSlice]

theorem set_eq_copyFromSlice {α : Type} {l : List α} {i : Nat} (hi : i < l.length) (x : α) :
    l.set i x = copyFromSlice l i [x] := by
  rw [copyFromSlice, List.set_eq_take_append_cons_drop, if_pos hi]; simp

theorem map_getD_copyFromSlice {ws T : List Nat} {c m : Nat} (hc : c + T.length = m)
    (hm : m ≤ ws.length) :
    (List.range m).map ((copyFromSlice ws c T).getD · 0) = (List.range c).map (ws.getD · 0) ++ T := by
  apply List.ext_getElem (by simp; omega)
  intro k hk _
  simp only [List.length_map, List.length_range] at hk
  rw [List.getElem_map, List.getElem_range, getD_copyFromSlice (by omega)]
  by_cases hkc : k < c
  · rw [if_neg (by omega), List.getElem_append_left (by simpa using hkc)]
    simp
  · rw [if_pos ⟨by omega, by omega⟩, List.getElem_append_right (by simp; omega)]
    simp [List.getD_eq_getElem?_getD, List.getElem?_eq_getElem (show k - c < T.length by omega)]

theorem copyFromSlice_min {ws T : List Nat} {c m : Nat} (hT : T.length = m - c) :
    copyFromSlice ws c T = copyFromSlice ws (min c m) T := by
  rcases Nat.le_total c m with h | h
  · rw [Nat.min_eq_left h]
  · obtain rfl : T = [] := List.eq_nil_of_length_eq_zero (by omega)
    rw [copyFromSlice_nil, copyFromSlice_nil]

theorem nodup_of_count_le {l l' : List Nat} (h : l'.Nodup) (hc : ∀ x, l.count x ≤ l'.count x) :
    l.Nodup :=
  List.nodup_iff_count_le_one.mpr fun x ↦ (hc x).trans (List.nodup_iff_count_le_one.mp h x)

/-- What the loop over the doubly indirect block leaves once it has filled positions `p` to
`q` of the doubly indirect part with the blocks `taken`, from the ids `W` of the doubly indirect
block and the array `store` to `W'` and `store'`: the earlier second-level index blocks stay,
the part reads as before followed by `taken`, and only second-level index blocks were
written. -/
structure Level2Filled (W : List Nat) (store : Nat → Block) (p : Nat) (taken : List Nat)
    (W' : List Nat) (store' : Nat → Block) (q : Nat) : Prop where
  words : IndexWords W'
  keeps : ∀ a, a * inodeIndirect1Count < p → W'.getD a 0 = W.getD a 0
  blocks : level2Blocks W' store' q = level2Blocks W store p ++ taken
  frame : ∀ b, store' b ≠ store b → ∃ a, a * inodeIndirect1Count < q ∧ b = W'.getD a 0

namespace Level2Filled

variable {W W₁ W₂ : List Nat} {store store₁ store₂ : Nat → Block} {p p₁ q : Nat}
  {t₁ t₂ : List Nat}

theorem refl (hW : IndexWords W) (store : Nat → Block) (p : Nat) :
    Level2Filled W store p [] W store p :=
  ⟨hW, fun _ _ ↦ rfl, by simp, fun _ h ↦ absurd rfl h⟩

theorem trans (h₁ : Level2Filled W store p t₁ W₁ store₁ p₁)
    (h₂ : Level2Filled W₁ store₁ p₁ t₂ W₂ store₂ q) (hp : p ≤ p₁) (hq : p₁ ≤ q) :
    Level2Filled W store p (t₁ ++ t₂) W₂ store₂ q where
  words := h₂.words
  keeps a ha := (h₂.keeps a (by omega)).trans (h₁.keeps a ha)
  blocks := by rw [h₂.blocks, h₁.blocks, List.append_assoc]
  frame b hb := by
    by_cases h : store₂ b = store₁ b
    · obtain ⟨a, ha, rfl⟩ := h₁.frame b (h ▸ hb)
      exact ⟨a, by omega, (h₂.keeps a ha).symm⟩
    · exact h₂.frame b h

/-- Writing the filled doubly indirect block back changes it and the blocks the loop wrote. -/
theorem writeback_frame {i2 : Nat} {W W' : List Nat} {store store₁ : Nat → Block}
    {p q : Nat} {taken : List Nat} (hf : Level2Filled W store p taken W' store₁ q) {b : Nat}
    (hb : writeIndex store₁ i2 W' b ≠ store b) :
    b = i2 ∨ ∃ a, a * inodeIndirect1Count < q ∧ b = indexEntry (writeIndex store₁ i2 W') i2 a := by
  by_cases hbi : b = i2
  · exact .inl hbi
  · rw [writeIndex_of_ne hbi] at hb
    obtain ⟨a, ha, rfl⟩ := hf.frame b hb
    exact .inr ⟨a, ha, by rw [indexEntry_writeIndex hf.words, if_pos rfl]⟩

end Level2Filled

namespace DiskInode

@[simp] theorem runStore_nextBlock_cons (b : Nat) (L : List Nat) (store : Nat → Block) :
    (nextBlock (b :: L)).runStore store = .ok ((b, L), store) := by
  simp [nextBlock]

theorem runStore_fillSlots {bound : Nat} (store : Nat → Block) :
    ∀ {L : List Nat} {slots : List Nat} {cur : Nat}, bound ≤ slots.length →
      bound - cur ≤ L.length →
      (fillSlots bound slots cur L).runStore store =
        .ok ((copyFromSlice slots cur (L.take (bound - cur)), max cur bound,
          L.drop (bound - cur)), store)
  | [], slots, cur, _, hL => by
    rw [fillSlots, if_neg (by simp at hL; omega)]
    simp [copyFromSlice_nil, Nat.max_eq_left (by simp at hL; omega : bound ≤ cur)]
  | b :: L, slots, cur, hb, hL => by
    rw [fillSlots]
    split_ifs with hc
    · have hset : (slots.set cur b).length = slots.length := List.length_set ..
      simp only [BlockIo.bind_eq]
      rw [BlockIo.runStore_bind_of_ok _ (runStore_nextBlock_cons b L store)]
      simp only
      rw [runStore_fillSlots store (hset ▸ hb) (by simp at hL ⊢; omega),
        set_eq_copyFromSlice (by omega)]
      have hk : bound - cur = (bound - (cur + 1)) + 1 := by omega
      have happ : copyFromSlice (copyFromSlice slots cur [b]) (cur + [b].length) _ = _ :=
        copyFromSlice_append [b] (L.take (bound - (cur + 1))) (by simp; omega)
      simp only [List.length_singleton, List.singleton_append] at happ
      rw [happ, hk, List.take_succ_cons, List.drop_succ_cons, Nat.max_eq_right (by omega),
        Nat.max_eq_right (by omega)]
    · rw [BlockIo.pure_eq, BlockIo.runStore_pure, show bound - cur = 0 by omega]
      simp [copyFromSlice_nil, Nat.max_eq_left (by omega : bound ≤ cur)]

theorem fillIndirect2_next (a1 b1 : Nat) (W : List Nat) (p : Nat) (L : List Nat) :
    (if p % inodeIndirect1Count + 1 = inodeIndirect1Count then
        fillIndirect2 a1 b1 W (p / inodeIndirect1Count + 1) 0 L
      else fillIndirect2 a1 b1 W (p / inodeIndirect1Count) (p % inodeIndirect1Count + 1) L) =
      fillIndirect2 a1 b1 W ((p + 1) / inodeIndirect1Count) ((p + 1) % inodeIndirect1Count) L := by
  rw [inodeIndirect1Count_eq]
  split_ifs with h
  · rw [show (p + 1) / 128 = p / 128 + 1 by omega, show (p + 1) % 128 = 0 by omega]
  · rw [show (p + 1) / 128 = p / 128 by omega, show (p + 1) % 128 = p % 128 + 1 by omega]

/-- One round of the loop over the doubly indirect block, at position `p`: a fresh
second-level index block when `p` starts one, then the data block into its slot. -/
theorem fillIndirect2_round {q p : Nat} (hq : q ≤ inodeIndirect1Count * inodeIndirect1Count)
    (hpq : p < q) {W : List Nat} (hW : IndexWords W) (store : Nat → Block) (taken rest : List Nat)
    (hlen : taken.length = if p % inodeIndirect1Count = 0 then 2 else 1)
    (hlt : ∀ x ∈ taken, x < 2 ^ 32) (hnd : (level2Blocks W store p ++ taken).Nodup) :
    ∃ W₁ store₁,
      (fillIndirect2 (q / inodeIndirect1Count) (q % inodeIndirect1Count) W
          (p / inodeIndirect1Count) (p % inodeIndirect1Count) (taken ++ rest)).runStore store =
        (fillIndirect2 (q / inodeIndirect1Count) (q % inodeIndirect1Count) W₁
          ((p + 1) / inodeIndirect1Count) ((p + 1) % inodeIndirect1Count) rest).runStore store₁ ∧
      Level2Filled W store p taken W₁ store₁ (p + 1) := by
  have e := inodeIndirect1Count_eq
  have hsz : 0 + blockSz ≤ blockSz := by omega
  have hcond : p / inodeIndirect1Count < q / inodeIndirect1Count ∨
      p / inodeIndirect1Count = q / inodeIndirect1Count ∧
        p % inodeIndirect1Count < q % inodeIndirect1Count := by
    rw [e]; omega
  have hp : p / inodeIndirect1Count < inodeIndirect1Count := by rw [e] at hq ⊢; omega
  have hWp : p / inodeIndirect1Count < W.length := hW.1 ▸ hp
  rw [fillIndirect2, if_pos hcond, if_pos hp, if_pos (Nat.mod_lt _ (by decide))]
  by_cases h0 : p % inodeIndirect1Count = 0
  · rw [if_pos h0] at hlen
    obtain ⟨x, y, rfl⟩ : ∃ x y, taken = [x, y] := by
      match taken, hlen with
      | [x, y], _ => exact ⟨x, y, rfl⟩
    have hx : (W.set (p / inodeIndirect1Count) x).getD (p / inodeIndirect1Count) 0 = x := by
      simp [hWp]
    rw [if_pos h0]
    simp only [BlockIo.bind_eq, BlockIo.pure_eq, BlockIo.runStore_bind, List.cons_append,
      List.nil_append, runStore_nextBlock_cons, BlockIo.runStore_pure,
      BlockIo.runStore_modify _ _ _ _ _ hsz, writeIndex_def, fillIndirect2_next, hx]
    refine ⟨_, _, rfl, ?_⟩
    have hxW : x ∉ level2Blocks W store p := fun h ↦ (List.nodup_append.mp hnd).2.2 h (by simp)
    have hws := (indexWords_indirectBlock ((store x).slice 0 blockSz)).set
      (p % inodeIndirect1Count) (hlt y (by simp))
    have hkeep : ∀ a, a * inodeIndirect1Count < p →
        (W.set (p / inodeIndirect1Count) x).getD a 0 = W.getD a 0 := by
      intro a ha
      have : p / inodeIndirect1Count ≠ a := by rw [e] at ha h0 ⊢; omega
      simp [List.getElem?_set_ne this]
    refine ⟨hW.set _ (hlt x (by simp)), hkeep, ?_, fun b hb ↦ ?_⟩
    · rw [level2Blocks_succ, level2Blocks_congr hkeep, level2Blocks_writeIndex hws]
      · rw [level2Slot, if_pos h0, hx, indexEntry_writeIndex hws, if_pos rfl, getD_set_of_lt]
        · rfl
        · rw [indirectBlock, length_words]; exact Nat.mod_lt _ (by decide)
      · intro j hj hjx
        exact absurd (hjx ▸ mem_level2Blocks (lt_of_le_of_lt (Nat.div_mul_le_self _ _) hj)) hxW
    · refine ⟨p / inodeIndirect1Count, by rw [e] at h0 ⊢; omega, ?_⟩
      rw [hx]
      by_contra hne
      exact hb (writeIndex_of_ne hne)
  · rw [if_neg h0] at hlen
    obtain ⟨y, rfl⟩ : ∃ y, taken = [y] := by
      match taken, hlen with
      | [y], _ => exact ⟨y, rfl⟩
    rw [if_neg h0]
    simp only [BlockIo.bind_eq, BlockIo.pure_eq, BlockIo.runStore_bind, List.cons_append,
      List.nil_append, runStore_nextBlock_cons, BlockIo.runStore_pure,
      BlockIo.runStore_modify _ _ _ _ _ hsz, writeIndex_def, fillIndirect2_next]
    refine ⟨_, _, rfl, ?_⟩
    have hws := (indexWords_indirectBlock
      ((store (W.getD (p / inodeIndirect1Count) 0)).slice 0 blockSz)).set
      (p % inodeIndirect1Count) (hlt y (by simp))
    have hBp : p / inodeIndirect1Count * inodeIndirect1Count < p := by rw [e] at h0 ⊢; omega
    refine ⟨hW, fun _ _ ↦ rfl, ?_, fun b hb ↦ ?_⟩
    · rw [level2Blocks_succ, level2Blocks_writeIndex hws]
      · rw [level2Slot, if_neg h0, indexEntry_writeIndex hws, if_pos rfl, getD_set_of_lt]
        · rfl
        · rw [indirectBlock, length_words]; exact Nat.mod_lt _ (by decide)
      · intro j hj hjB
        have hjp : j / inodeIndirect1Count = p / inodeIndirect1Count := by
          by_contra hne
          have hlt' : j / inodeIndirect1Count < p / inodeIndirect1Count :=
            lt_of_le_of_ne (Nat.div_le_div_right hj.le) hne
          exact getD_ne_of_nodup (List.nodup_append.mp hnd).1 hlt' hBp hjB
        have hjm : p % inodeIndirect1Count ≠ j % inodeIndirect1Count := by
          rw [e] at hjp ⊢; omega
        rw [← hjB, indexEntry]
        simp [List.getElem?_set_ne hjm]
    · refine ⟨p / inodeIndirect1Count, by omega, ?_⟩
      by_contra hne
      exact hb (writeIndex_of_ne hne)

/-- The loop over the doubly indirect block fills positions `p` to `q` of the doubly indirect
part, taking the blocks it needs from the front of `newBlocks`. -/
theorem runStore_fillIndirect2 {q : Nat} (hq : q ≤ inodeIndirect1Count * inodeIndirect1Count) :
    ∀ (k : Nat) {p : Nat} {W : List Nat} (taken rest : List Nat) (store : Nat → Block),
      q - p = k → p ≤ q → IndexWords W → (∀ x ∈ taken, x < 2 ^ 32) →
      taken.length = level2Count q - level2Count p → (level2Blocks W store p ++ taken).Nodup →
      ∃ W' store', (fillIndirect2 (q / inodeIndirect1Count) (q % inodeIndirect1Count) W
          (p / inodeIndirect1Count) (p % inodeIndirect1Count) (taken ++ rest)).runStore store =
        .ok ((W', rest), store') ∧ Level2Filled W store p taken W' store' q
  | 0, p, W, taken, rest, store, hk, hpq, hW, _, hlen, _ => by
    obtain rfl : p = q := by omega
    obtain rfl : taken = [] := List.eq_nil_of_length_eq_zero (by omega)
    refine ⟨W, store, ?_, .refl hW store p⟩
    rw [fillIndirect2, if_neg (by omega)]
    rfl
  | k + 1, p, W, taken, rest, store, hk, hpq, hW, hlt, hlen, hnd => by
    have hc := level2Count_succ p
    have hm := level2Count_mono (show p + 1 ≤ q by omega)
    obtain ⟨W₁, store₁, hrun, h₁⟩ := fillIndirect2_round (p := p) hq (by omega) hW store
      (taken.take (if p % inodeIndirect1Count = 0 then 2 else 1))
      (taken.drop (if p % inodeIndirect1Count = 0 then 2 else 1) ++ rest) (by simp; omega)
      (fun x hx ↦ hlt x (List.mem_of_mem_take hx))
      (hnd.sublist ((List.take_sublist _ taken).append_left _))
    obtain ⟨W', store', hrun', h₂⟩ := runStore_fillIndirect2 hq k (p := p + 1)
      (taken.drop (if p % inodeIndirect1Count = 0 then 2 else 1)) rest store₁ (by omega)
      (by omega) h₁.words (fun x hx ↦ hlt x (List.mem_of_mem_drop hx)) (by simp; omega)
      (by rw [h₁.blocks, List.append_assoc, List.take_append_drop]; exact hnd)
    refine ⟨W', store', ?_, by simpa using h₁.trans h₂ (by omega) (by omega)⟩
    rw [← List.take_append_drop (if p % inodeIndirect1Count = 0 then 2 else 1) taken,
      List.append_assoc, hrun, hrun']

theorem indirect2PartLen_add (t : Nat) : indirect2PartLen (inodeDirectCount + t) =
    if inodeIndirect1Count < t then 1 + level2Count (t - inodeIndirect1Count) else 0 := by
  simp only [indirect2PartLen, indirect1Bound, inodeDirectCount, inodeIndirect1Count_eq]
  split_ifs <;> first | omega | rw [show 28 + t - (28 + 128) = t - 128 by omega]

/-- Writing the filled doubly indirect block back: the part reads as the loop left it. -/
theorem indirect2Part_writeback (d : DiskInode) {i2 : Nat} {W W' : List Nat}
    {store store₁ : Nat → Block} {p q : Nat} {taken : List Nat}
    (hf : Level2Filled W store p taken W' store₁ q) (hq : 0 < q)
    (hi2 : i2 ∉ level2Blocks W store p ++ taken) :
    { d with indirect2 := i2 }.indirect2Part (writeIndex store₁ i2 W') (indirect1Bound + q) =
      i2 :: (level2Blocks W store p ++ taken) := by
  rw [indirect2Part, if_pos (by omega), Nat.add_sub_cancel_left]
  simp only [indirect2Words, indirectBlock_writeIndex hf.words]
  rw [level2Blocks_writeIndex hf.words, hf.blocks]
  intro j hj hji2
  rw [← hf.blocks] at hi2
  exact absurd (hji2 ▸ mem_level2Blocks (lt_of_le_of_lt (Nat.div_mul_le_self _ _) hj)) hi2

/-- `increase_size` from `// alloc indirect2` on: the doubly indirect part grows from
`c` to `t` ids behind the direct ones by the blocks `taken`. -/
theorem runStore_increaseIndirect2 (d : DiskInode) {c t : Nat} (hct : c ≤ t)
    (ht : t ≤ inodeIndirect1Count + inodeIndirect1Count * inodeIndirect1Count)
    (hc : inodeIndirect1Count < t → inodeIndirect1Count ≤ c) (store : Nat → Block)
    (taken rest : List Nat)
    (hlen : taken.length =
      indirect2PartLen (inodeDirectCount + t) - indirect2PartLen (inodeDirectCount + c))
    (hlt : ∀ x ∈ taken, x < 2 ^ 32)
    (hnd : (d.indirect2Part store (inodeDirectCount + c) ++ taken).Nodup) :
    ∃ i2 store', (d.increaseIndirect2 c t (taken ++ rest)).runStore store =
        .ok ({ d with indirect2 := i2 }, store') ∧ (i2 = d.indirect2 ∨ i2 ∈ taken) ∧
      { d with indirect2 := i2 }.indirect2Part store' (inodeDirectCount + t) =
        d.indirect2Part store (inodeDirectCount + c) ++ taken ∧
      ∀ b, store' b ≠ store b → inodeIndirect1Count < t ∧
        (b = i2 ∨ ∃ a, a * inodeIndirect1Count < t - inodeIndirect1Count ∧
          b = indexEntry store' i2 a) := by
  have e := inodeIndirect1Count_eq
  have hsz : 0 + blockSz ≤ blockSz := by omega
  rw [indirect2PartLen_add, indirect2PartLen_add] at hlen
  rw [increaseIndirect2]
  by_cases ht' : inodeIndirect1Count < t
  swap
  · obtain rfl : taken = [] := List.eq_nil_of_length_eq_zero (by
      rw [hlen, if_neg ht', if_neg (show ¬inodeIndirect1Count < c by omega)])
    rw [if_neg ht']
    exact ⟨d.indirect2, store, by simp, .inl rfl, by
      simp [indirect2Part, indirect1Bound, inodeDirectCount, ht']; omega, fun b hb ↦ absurd rfl hb⟩
  rw [if_pos ht']
  have hq : t - inodeIndirect1Count ≤ inodeIndirect1Count * inodeIndirect1Count := by omega
  have hpos : indirect1Bound + (t - inodeIndirect1Count) = inodeDirectCount + t := by
    simp only [indirect1Bound, inodeDirectCount]; omega
  by_cases hc' : c = inodeIndirect1Count
  · -- a fresh doubly indirect block
    obtain ⟨x, taken', rfl⟩ : ∃ x taken', taken = x :: taken' := by
      match taken, hlen with
      | x :: taken', _ => exact ⟨x, taken', rfl⟩
      | [], h =>
        rw [if_pos ht', if_neg (show ¬inodeIndirect1Count < c by omega), List.length_nil] at h
        omega
    have hpart : d.indirect2Part store (inodeDirectCount + c) = [] := by
      simp [indirect2Part, indirect1Bound, inodeDirectCount, hc']
    rw [hpart, List.nil_append, List.nodup_cons] at hnd
    obtain ⟨W', store₁, hrun, hf⟩ := runStore_fillIndirect2 hq (t - inodeIndirect1Count - 0)
      (p := 0) (W := indirectBlock ((store x).slice 0 blockSz)) taken' rest store rfl
      (Nat.zero_le _) (indexWords_indirectBlock _) (fun y hy ↦ hlt y (List.mem_cons_of_mem _ hy))
      (by
        rw [if_pos ht', if_neg (show ¬inodeIndirect1Count < c by omega), List.length_cons] at hlen
        have : level2Count 0 = 0 := rfl
        omega)
      (by simpa [level2Blocks] using hnd.2)
    rw [if_pos hc']
    simp only [BlockIo.bind_eq, BlockIo.pure_eq, BlockIo.runStore_bind, List.cons_append,
      runStore_nextBlock_cons, BlockIo.runStore_pure, BlockIo.runStore_modify _ _ _ _ _ hsz]
    rw [show (c - inodeIndirect1Count) = 0 by omega, hrun]
    refine ⟨x, _, rfl, .inr (List.mem_cons_self _ _), ?_, fun b hb ↦ ?_⟩
    · rw [writeIndex_def, ← hpos, indirect2Part_writeback d hf (by omega)
        (by simpa [level2Blocks] using hnd.1), hpart]
      simp [level2Blocks]
    · exact ⟨ht', hf.writeback_frame hb⟩
  · -- the doubly indirect block in place
    have hc'' : inodeIndirect1Count < c := by have := hc ht'; omega
    have hpart : d.indirect2Part store (inodeDirectCount + c) =
        d.indirect2 :: level2Blocks (d.indirect2Words store) store (c - inodeIndirect1Count) := by
      rw [indirect2Part, if_pos (by simp only [indirect1Bound, inodeDirectCount]; omega),
        show inodeDirectCount + c - indirect1Bound = c - inodeIndirect1Count by
          simp only [indirect1Bound, inodeDirectCount]; omega]
    rw [hpart, List.cons_append, List.nodup_cons] at hnd
    obtain ⟨W', store₁, hrun, hf⟩ := runStore_fillIndirect2 hq
      (t - inodeIndirect1Count - (c - inodeIndirect1Count)) (p := c - inodeIndirect1Count)
      (W := indirectBlock ((store d.indirect2).slice 0 blockSz)) taken rest store rfl
      (by omega) (indexWords_indirectBlock _) hlt
      (by rw [if_pos ht', if_pos hc''] at hlen; omega) hnd.2
    rw [if_neg hc']
    simp only [BlockIo.bind_eq, BlockIo.pure_eq, BlockIo.runStore_bind, BlockIo.runStore_pure,
      BlockIo.runStore_modify _ _ _ _ _ hsz]
    rw [hrun]
    refine ⟨d.indirect2, _, rfl, .inl rfl, ?_, fun b hb ↦ ⟨ht', hf.writeback_frame hb⟩⟩
    rw [writeIndex_def, ← hpos, indirect2Part_writeback d hf (by omega) hnd.1, hpart]
    rfl

theorem runStore_fillIndirect1 (i1 c t : Nat) (store : Nat → Block) {T : List Nat}
    (rest : List Nat) (hT : T.length = min t inodeIndirect1Count - c) :
    (fillIndirect1 i1 c t (T ++ rest)).runStore store =
      .ok ((max c (min t inodeIndirect1Count), rest),
        writeIndex store i1 (copyFromSlice (indirectBlock ((store i1).slice 0 blockSz)) c T)) := by
  have hsz : 0 + blockSz ≤ blockSz := by omega
  rw [fillIndirect1, BlockIo.runStore_modify _ _ _ _ _ hsz]
  simp only [BlockIo.bind_eq, BlockIo.pure_eq, BlockIo.runStore_bind]
  rw [runStore_fillSlots store (by simp [indirectBlock, inodeIndirect1Count]) (by simp; omega)]
  simp [hT, writeIndex_def]

/-- Writing the filled indirect index block back: its part reads as the loop left it. -/
theorem indirect1Part_writeback (d : DiskInode) {t c : Nat} {T : List Nat}
    (store : Nat → Block) (ht : 0 < t) (hc : c + T.length = min t inodeIndirect1Count)
    (hT : ∀ x ∈ T, x < 2 ^ 32) :
    d.indirect1Part (writeIndex store d.indirect1
        (copyFromSlice (indirectBlock ((store d.indirect1).slice 0 blockSz)) c T))
        (inodeDirectCount + t) =
      d.indirect1 :: ((List.range c).map (indexEntry store d.indirect1) ++ T) := by
  have hlen : (indirectBlock ((store d.indirect1).slice 0 blockSz)).length =
      inodeIndirect1Count := by
    simp [indirectBlock]
  have hws : IndexWords (copyFromSlice _ c T) :=
    (indexWords_indirectBlock ((store d.indirect1).slice 0 blockSz)).copyFromSlice (by omega) hT
  have hentry : indexEntry (writeIndex store d.indirect1
      (copyFromSlice (indirectBlock ((store d.indirect1).slice 0 blockSz)) c T)) d.indirect1 =
      ((copyFromSlice (indirectBlock ((store d.indirect1).slice 0 blockSz)) c T).getD · 0) :=
    funext fun k ↦ by rw [indexEntry_writeIndex hws, if_pos rfl]
  rw [indirect1Part, if_pos (by omega), show min (inodeDirectCount + t) indirect1Bound -
    inodeDirectCount = min t inodeIndirect1Count by simp only [indirect1Bound]; omega]
  rw [hentry, map_getD_copyFromSlice hc (by omega)]
  rfl

@[simp] theorem indirect1Part_with_indirect2 (d : DiskInode) (i2 : Nat) (store : Nat → Block)
    (n : Nat) : { d with indirect2 := i2 }.indirect1Part store n = d.indirect1Part store n := rfl

/-- `increase_size` from `// fill indirect1` on, with the indirect index block in place: its
entries grow from `c` by `T2`, then the doubly indirect part by `T3`. -/
theorem runStore_fillIndirect1_bind (d : DiskInode) {c t : Nat} (hct : c ≤ t) (ht0 : 0 < t)
    (ht : t ≤ inodeIndirect1Count + inodeIndirect1Count * inodeIndirect1Count)
    (store : Nat → Block) (T2 T3 rest : List Nat)
    (hT2 : T2.length = min t inodeIndirect1Count - c)
    (hT3 : T3.length = indirect2PartLen (inodeDirectCount + t) -
      indirect2PartLen (inodeDirectCount + c))
    (hlt : ∀ x ∈ T2 ++ T3, x < 2 ^ 32)
    (hnd : (d.indirect1 :: (d.indirect2Part store (inodeDirectCount + c) ++ T2 ++ T3)).Nodup) :
    ∃ i2 store', ((fillIndirect1 d.indirect1 c t (T2 ++ T3 ++ rest)).bind fun r ↦
        d.increaseIndirect2 r.1 t r.2).runStore store = .ok ({ d with indirect2 := i2 }, store') ∧
      (i2 = d.indirect2 ∨ i2 ∈ T3) ∧
      { d with indirect2 := i2 }.indirect1Part store' (inodeDirectCount + t) ++
          { d with indirect2 := i2 }.indirect2Part store' (inodeDirectCount + t) =
        d.indirect1 :: (List.range (min c inodeIndirect1Count)).map (indexEntry store d.indirect1) ++
          d.indirect2Part store (inodeDirectCount + c) ++ T2 ++ T3 ∧
      ∀ b, store' b ≠ store b →
        b ∈ { d with indirect2 := i2 }.indexBlocksUpTo store' (inodeDirectCount + t) := by
  have e := inodeIndirect1Count_eq
  have hB : indirect1Bound = inodeDirectCount + inodeIndirect1Count := rfl
  have hi1 := List.nodup_cons.mp hnd
  have hfill := runStore_fillIndirect1 d.indirect1 c t store (T3 ++ rest) hT2
  rw [copyFromSlice_min hT2] at hfill
  set store₁ := writeIndex store d.indirect1 (copyFromSlice
    (indirectBlock ((store d.indirect1).slice 0 blockSz)) (min c (min t inodeIndirect1Count)) T2)
  -- the doubly indirect part does not read the indirect index block
  have hI2 : d.indirect2Part store₁ (inodeDirectCount + max c (min t inodeIndirect1Count)) =
      d.indirect2Part store (inodeDirectCount + c) := by
    have h₁ : d.indirect2Part store (inodeDirectCount + max c (min t inodeIndirect1Count)) =
        d.indirect2Part store (inodeDirectCount + c) := by
      by_cases hc : c < inodeIndirect1Count
      · rw [indirect2Part_eq_nil (by omega), indirect2Part_eq_nil (by omega)]
      · rw [Nat.max_eq_left (by omega)]
    rw [← h₁]
    refine indirect2Part_congr fun b hb ↦ writeIndex_of_ne fun hb' ↦ hi1.1 ?_
    rw [h₁] at hb
    exact hb' ▸ List.mem_append_left _ (List.mem_append_left _ hb)
  obtain ⟨i2, store', hrun, hi2, hpart, hframe⟩ := runStore_increaseIndirect2 d
    (c := max c (min t inodeIndirect1Count)) (t := t) (max_le hct (min_le_left _ _)) ht
    (fun h ↦ le_max_of_le_right (le_min h.le le_rfl)) store₁ T3 rest
    (by
      rw [← length_indirect2Part d store₁ (inodeDirectCount + max c (min t inodeIndirect1Count)),
        hI2, length_indirect2Part]
      exact hT3)
    (fun x hx ↦ hlt x (List.mem_append_right _ hx))
    (by rw [hI2]; exact hi1.2.sublist (by simp))
  rw [hI2] at hpart
  have hnot : d.indirect1 ∉ d.indirect2Part store (inodeDirectCount + c) ++ T3 := fun h ↦
    hi1.1 (by simp only [List.mem_append] at h ⊢; tauto)
  have hkeep : store' d.indirect1 = store₁ d.indirect1 := by
    by_contra hne
    obtain ⟨ht', hb⟩ := hframe _ hne
    refine hnot (hpart ▸ ?_)
    rcases hb with hb | ⟨a, ha, hb⟩
    · exact hb ▸ indirect2_mem_indirect2Part (by omega)
    · exact hb ▸ indexEntry_mem_indirect2Part (by omega)
  refine ⟨i2, store', by rw [List.append_assoc, BlockIo.runStore_bind_of_ok _ hfill]; exact hrun,
    hi2, ?_, fun b hb ↦ ?_⟩
  · rw [hpart, indirect1Part_with_indirect2, indirect1Part_congr hkeep,
      indirect1Part_writeback d store ht0 (by omega) (fun x hx ↦ hlt x (List.mem_append_left _ hx)),
      show min c (min t inodeIndirect1Count) = min c inodeIndirect1Count by omega]
    by_cases hc : c < inodeIndirect1Count
    · rw [indirect2Part_eq_nil (by omega)]; simp
    · obtain rfl : T2 = [] := List.eq_nil_of_length_eq_zero (by omega)
      simp
  · by_cases h₁ : store' b = store₁ b
    · have hb₁ : b = d.indirect1 := by
        by_contra hne
        exact hb (h₁.trans (writeIndex_of_ne hne))
      exact hb₁ ▸ indirect1_mem_indexBlocksUpTo (by omega)
    · obtain ⟨ht', hb'⟩ := hframe b h₁
      rcases hb' with rfl | ⟨a, ha, rfl⟩
      · exact indirect2_mem_indexBlocksUpTo (by omega)
      · exact indexEntry_mem_indexBlocksUpTo (by omega)

/-- `increase_size` from `// alloc indirect1` on: the indirect and doubly indirect parts grow
from `cur` to `tot` data blocks by the blocks `taken`, and only index blocks of the result
are written. -/
theorem runStore_increaseIndirect1 (d : DiskInode) (cur tot : Nat) (hct : cur ≤ tot)
    (htot : tot ≤ maxDataBlocks) (hcur : inodeDirectCount < tot → inodeDirectCount ≤ cur)
    (store : Nat → Block) (taken rest : List Nat)
    (hlen : taken.length + (indirect1PartLen cur + indirect2PartLen cur) =
      indirect1PartLen tot + indirect2PartLen tot)
    (hlt : ∀ x ∈ taken, x < 2 ^ 32)
    (hnd : (d.indirect1Part store cur ++ d.indirect2Part store cur ++ taken).Nodup) :
    ∃ i1 i2 store', (d.increaseIndirect1 cur tot (taken ++ rest)).runStore store =
        .ok ({ d with indirect1 := i1, indirect2 := i2 }, store') ∧
      (i1 = d.indirect1 ∨ i1 ∈ taken) ∧ (i2 = d.indirect2 ∨ i2 ∈ taken) ∧
      { d with indirect1 := i1, indirect2 := i2 }.indirect1Part store' tot ++
          { d with indirect1 := i1, indirect2 := i2 }.indirect2Part store' tot =
        d.indirect1Part store cur ++ d.indirect2Part store cur ++ taken ∧
      ∀ b, store' b ≠ store b →
        b ∈ { d with indirect1 := i1, indirect2 := i2 }.indexBlocksUpTo store' tot := by
  have e := inodeIndirect1Count_eq
  have hB : indirect1Bound = inodeDirectCount + inodeIndirect1Count := rfl
  have hM : maxDataBlocks = indirect1Bound + inodeIndirect1Count * inodeIndirect1Count := rfl
  rw [increaseIndirect1]
  by_cases ht : inodeDirectCount < tot
  swap
  · obtain rfl : taken = [] := List.eq_nil_of_length_eq_zero (by
      simp only [indirect1PartLen, indirect2PartLen] at hlen
      rw [if_neg ht, if_neg (by omega), if_neg (by omega), if_neg (by omega)] at hlen
      omega)
    rw [if_neg ht]
    refine ⟨d.indirect1, d.indirect2, store, by simp, .inl rfl, .inl rfl, ?_,
      fun b hb ↦ absurd rfl hb⟩
    rw [indirect1Part_eq_nil (by omega), indirect2Part_eq_nil (by omega),
      indirect1Part_eq_nil (by omega), indirect2Part_eq_nil (by omega)]
    rfl
  rw [if_pos ht]
  have hc := hcur ht
  have hct' : cur - inodeDirectCount ≤ tot - inodeDirectCount := Nat.sub_le_sub_right hct _
  have ht0 : 0 < tot - inodeDirectCount := Nat.sub_pos_of_lt ht
  have htot₂ : tot - inodeDirectCount ≤
      inodeIndirect1Count + inodeIndirect1Count * inodeIndirect1Count := by omega
  have htot' : inodeDirectCount + (tot - inodeDirectCount) = tot := Nat.add_sub_cancel' ht.le
  have hcur' : inodeDirectCount + (cur - inodeDirectCount) = cur := Nat.add_sub_cancel' hc
  have hlen₁ : indirect1PartLen tot = 1 + min (tot - inodeDirectCount) inodeIndirect1Count := by
    simp only [indirect1PartLen, if_pos ht]; omega
  have hI2 : indirect2PartLen cur ≤ indirect2PartLen tot := indirect2PartLen_mono hct
  by_cases hc28 : cur = inodeDirectCount
  · -- a fresh indirect index block
    have hnil₁ : d.indirect1Part store cur = [] := indirect1Part_eq_nil hc28.le
    have hnil₂ : d.indirect2Part store cur = [] := indirect2Part_eq_nil (by omega)
    rw [hnil₁, hnil₂, List.nil_append, List.nil_append] at hnd
    have hlen₀ : indirect1PartLen cur = 0 := if_neg (by omega)
    obtain ⟨x, T, rfl⟩ : ∃ x T, taken = x :: T := by
      match taken, hlen with
      | x :: T, _ => exact ⟨x, T, rfl⟩
      | [], h => rw [List.length_nil] at h; omega
    set k := min (tot - inodeDirectCount) inodeIndirect1Count - (cur - inodeDirectCount)
    have hT := List.take_append_drop k T
    obtain ⟨i2, store', hrun, hi2, hpart, hframe⟩ := runStore_fillIndirect1_bind
      { d with indirect1 := x } hct' ht0 htot₂ store (T.take k) (T.drop k) rest
      (by simp only [List.length_take, List.length_cons] at hlen ⊢; omega)
      (by simp only [List.length_drop, List.length_cons, htot', hcur'] at hlen ⊢; omega)
      (fun y hy ↦ hlt y (List.mem_cons_of_mem _ (hT ▸ hy)))
      (by
        rw [indirect2Part_eq_nil (by omega), List.nil_append, hT]
        exact hnd)
    rw [hT, BlockIo.runStore_bind] at hrun
    rw [htot'] at hpart hframe
    rw [if_pos hc28]
    simp only [BlockIo.bind_eq, BlockIo.pure_eq, BlockIo.runStore_bind, List.cons_append,
      runStore_nextBlock_cons, BlockIo.runStore_pure]
    refine ⟨x, i2, store', hrun, .inr (List.mem_cons_self _ _),
      hi2.imp_right (List.mem_cons_of_mem _ ∘ List.mem_of_mem_drop), ?_, hframe⟩
    rw [hpart, hnil₁, hnil₂, show cur - inodeDirectCount = 0 by omega,
      indirect2Part_eq_nil (by omega)]
    simp [hT]
  · -- the indirect index block in place
    have hind1 : d.indirect1Part store cur = d.indirect1 ::
        (List.range (min (cur - inodeDirectCount) inodeIndirect1Count)).map
          (indexEntry store d.indirect1) := by
      rw [indirect1Part, if_pos (by omega),
        show min cur indirect1Bound - inodeDirectCount =
          min (cur - inodeDirectCount) inodeIndirect1Count by omega]
    have hlen₀ : indirect1PartLen cur = 1 + min (cur - inodeDirectCount) inodeIndirect1Count := by
      simp only [indirect1PartLen, if_pos (show inodeDirectCount < cur by omega)]; omega
    set k := min (tot - inodeDirectCount) inodeIndirect1Count - (cur - inodeDirectCount)
    have hT := List.take_append_drop k taken
    obtain ⟨i2, store', hrun, hi2, hpart, hframe⟩ := runStore_fillIndirect1_bind d hct' ht0 htot₂
      store (taken.take k) (taken.drop k) rest
      (by simp only [List.length_take] at hlen ⊢; omega)
      (by simp only [List.length_drop, htot', hcur'] at hlen ⊢; omega)
      (fun y hy ↦ hlt y (hT ▸ hy))
      (by
        rw [hcur', List.append_assoc, hT]
        refine nodup_of_count_le hnd fun y ↦ ?_
        rw [hind1]
        simp only [List.count_cons, List.count_append]
        omega)
    rw [hT, BlockIo.runStore_bind] at hrun
    rw [htot'] at hpart hframe
    rw [if_neg hc28]
    simp only [BlockIo.bind_eq, BlockIo.pure_eq, BlockIo.runStore_bind, BlockIo.runStore_pure]
    refine ⟨d.indirect1, i2, store', hrun, .inl rfl,
      hi2.imp_right List.mem_of_mem_drop, ?_, hframe⟩
    rw [hpart, hind1, hcur', List.append_assoc _ (taken.take k), hT]

/-- What `DiskInode::increase_size` leaves, from the record `d` over the array `store` to `d'`
over `store'`, when it grew the inode to `newSize` bytes with the fresh blocks `newBlocks`:
the inode addresses what it addressed before followed by `newBlocks`, and only its index
blocks were written. -/
structure Grown (d : DiskInode) (store : Nat → Block) (newSize : Nat) (newBlocks : List Nat)
    (d' : DiskInode) (store' : Nat → Block) : Prop where
  valid : d'.Valid
  size_eq : d'.size = newSize
  type_eq : d'.type_ = d.type_
  addressed_eq : d'.addressed store' = d.addressed store ++ newBlocks
  frame : ∀ b, store' b ≠ store b → b ∈ d'.indexBlocksUpTo store' d'.dataBlocks

@[simp] theorem indirect1Part_with_direct (d : DiskInode) (size : Nat) (direct : List Nat)
    (store : Nat → Block) (n : Nat) :
    { d with size, direct }.indirect1Part store n = d.indirect1Part store n := rfl

@[simp] theorem indirect2Part_with_direct (d : DiskInode) (size : Nat) (direct : List Nat)
    (store : Nat → Block) (n : Nat) :
    { d with size, direct }.indirect2Part store n = d.indirect2Part store n := rfl

theorem dataBlocksOf_mono {size newSize : Nat} (h : size ≤ newSize) :
    dataBlocksOf size ≤ dataBlocksOf newSize :=
  Nat.div_le_div_right (by omega)

/-- `DiskInode::increase_size` wires the fresh blocks `newBlocks`, `total_blocks(new_size) -
total_blocks(size)` of them, into the index in order. -/
theorem runStore_increaseSize {d : DiskInode} (hd : d.Valid) {newSize : Nat}
    (hsize : d.size ≤ newSize) (hnew : newSize < 2 ^ 32)
    (hmax : dataBlocksOf newSize ≤ maxDataBlocks) (store : Nat → Block) {newBlocks : List Nat}
    (hlen : newBlocks.length = totalBlocks newSize - totalBlocks d.size)
    (hlt : ∀ x ∈ newBlocks, x < 2 ^ 32) (hnd : (d.addressed store ++ newBlocks).Nodup) :
    ∃ d' store', (d.increaseSize newSize newBlocks).runStore store = .ok (d', store') ∧
      Grown d store newSize newBlocks d' store' := by
  have e := inodeIndirect1Count_eq
  have hB : indirect1Bound = inodeDirectCount + inodeIndirect1Count := rfl
  have hnn : d.dataBlocks ≤ dataBlocksOf newSize := dataBlocksOf_mono hsize
  have hdl : d.direct.length = inodeDirectCount := hd.2.1
  have htot : totalBlocks d.size = directPartLen d.dataBlocks + indirect1PartLen d.dataBlocks +
      indirect2PartLen d.dataBlocks := totalBlocks_eq_partLen d.size
  have htot' := totalBlocks_eq_partLen newSize
  have hm₁ := indirect1PartLen_mono hnn
  have hm₂ := indirect2PartLen_mono hnn
  set n := d.dataBlocks
  set n' := dataBlocksOf newSize
  set k := min n' inodeDirectCount - n
  have hk : k ≤ newBlocks.length := by
    simp only [directPartLen, dataBlocks] at htot htot' ⊢; omega
  have hfill : (fillSlots (min n' inodeDirectCount) d.direct n newBlocks).runStore store = _ :=
    runStore_fillSlots store ((min_le_right _ _).trans hdl.ge) hk
  rw [copyFromSlice_min (List.length_take_of_le hk)] at hfill
  set direct := copyFromSlice d.direct (min n (min n' inodeDirectCount)) (newBlocks.take k)
  have hT1 : min n (min n' inodeDirectCount) + (newBlocks.take k).length = min n' inodeDirectCount :=
    by rw [List.length_take_of_le hk]; omega
  -- the indirect and doubly indirect parts at `max n (min n' 28)` are those at `n`
  have hI1 : d.indirect1Part store (max n (min n' inodeDirectCount)) = d.indirect1Part store n := by
    rcases Nat.le_total n inodeDirectCount with h | h
    · rw [indirect1Part_eq_nil h, indirect1Part_eq_nil (max_le h (min_le_right _ _))]
    · rw [Nat.max_eq_left ((min_le_right _ _).trans h)]
  have hI2 : d.indirect2Part store (max n (min n' inodeDirectCount)) = d.indirect2Part store n := by
    rcases Nat.le_total n inodeDirectCount with h | h
    · rw [indirect2Part_eq_nil ((max_le h (min_le_right _ _)).trans (Nat.le_add_right _ _)),
        indirect2Part_eq_nil (h.trans (Nat.le_add_right _ _))]
    · rw [Nat.max_eq_left ((min_le_right _ _).trans h)]
  have hparts := d.blocksUpTo_eq_parts store n
  obtain ⟨i1, i2, store', hrun, hi1, hi2, hpart, hframe⟩ := runStore_increaseIndirect1
    { d with size := newSize, direct } (max n (min n' inodeDirectCount)) n'
    (max_le hnn (min_le_left _ _)) hmax (fun h ↦ le_max_of_le_right (le_min h.le le_rfl)) store
    (newBlocks.drop k) []
    (by
      rw [← length_indirect1Part d store, ← length_indirect2Part d store, hI1, hI2,
        length_indirect1Part, length_indirect2Part, List.length_drop]
      simp only [directPartLen, dataBlocks] at htot htot' hk ⊢
      omega)
    (fun x hx ↦ hlt x (List.mem_of_mem_drop hx))
    (by
      rw [indirect1Part_with_direct, indirect2Part_with_direct, hI1, hI2]
      refine nodup_of_count_le hnd fun y ↦ ?_
      have hsplit : newBlocks.count y = (newBlocks.take k).count y + (newBlocks.drop k).count y := by
        rw [← List.count_append, List.take_append_drop]
      rw [addressed, hparts]
      simp only [List.count_append]
      omega)
  rw [List.append_nil] at hrun
  dsimp only at hpart hframe
  refine ⟨{ d with size := newSize, direct, indirect1 := i1, indirect2 := i2 }, store', ?_,
    ⟨⟨hnew, ?_, ?_, ?_, ?_⟩, rfl, rfl, ?_, hframe⟩⟩
  · rw [increaseSize]
    simp only [BlockIo.bind_eq]
    exact (BlockIo.runStore_bind_of_ok _ hfill).trans hrun
  · exact (length_copyFromSlice (hT1.trans_le ((min_le_right _ _).trans hdl.ge))).trans hdl
  · intro b hb
    simp only [direct, copyFromSlice, List.mem_append] at hb
    rcases hb with (hb | hb) | hb
    · exact hd.2.2.1 b (List.mem_of_mem_take hb)
    · exact hlt b (List.mem_of_mem_take hb)
    · exact hd.2.2.1 b (List.mem_of_mem_drop hb)
  · rcases hi1 with rfl | hi1
    · exact hd.2.2.2.1
    · exact hlt _ (List.mem_of_mem_drop hi1)
  · rcases hi2 with rfl | hi2
    · exact hd.2.2.2.2
    · exact hlt _ (List.mem_of_mem_drop hi2)
  · have hn' : ({ d with size := newSize, direct, indirect1 := i1, indirect2 := i2 } :
        DiskInode).dataBlocks = n' := rfl
    rw [addressed, addressed, hn', blocksUpTo_eq_parts, List.append_assoc, hpart,
      indirect1Part_with_direct, indirect2Part_with_direct, hI1, hI2, directPart,
      map_getD_copyFromSlice hT1 (hdl ▸ min_le_right _ _), hparts, ← min_assoc, min_eq_left hnn]
    rcases Nat.le_total n inodeDirectCount with h | h
    · rw [indirect1Part_eq_nil h, indirect2Part_eq_nil (h.trans (Nat.le_add_right _ _))]
      conv_rhs => rw [← List.take_append_drop k newBlocks]
      simp [directPart]
    · rw [show k = 0 from Nat.sub_eq_zero_of_le ((min_le_right _ _).trans h), List.take_zero,
        List.drop_zero]
      simp [directPart]

end DiskInode

end Rcore.EasyFs
