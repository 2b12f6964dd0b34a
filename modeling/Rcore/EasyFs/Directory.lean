import Rcore.EasyFs.InodeData
import Rcore.EasyFs.Vfs

/-!
# Directories as lists of records

A directory's content is its first `size / DIRENT_SZ` records of 32 bytes. `records` reads them
as the list of their names and inode ids, which is how the loops of `vfs.rs` see a directory:
`find_inode_id` returns the id of the first record with the name (`List.lookup`), `ls` the names
in order, and `get_link_num` counts the records whose inode lives at an address. Each loop reads
its records with `DiskInode::read_at` into a 32-byte buffer, a read that returns all 32 bytes for
every record below the size (`runStore_readAt_record`), so none of their assertions fails.

The loop of the closure of `unlink` stops at the first record with the name, copies the last
record over it and shrinks the directory by one record (`runStore_unlinkLoop_found`); on the list
of records this is `swapRemove`, a permutation of the list without that record.
-/

set_option autoImplicit false
set_option relaxedAutoImplicit false

namespace Rcore.EasyFs

/-- Copying a whole buffer's worth of bytes over it gives those bytes. -/
theorem copyFromSlice_zero_of_length_eq {α : Type} {dst src : List α}
    (h : dst.length = src.length) : copyFromSlice dst 0 src = src := by
  simp [copyFromSlice, h]

/-! ### Removing by swapping with the last element -/

/-- The removal of the closure of `unlink` on a list: the last element takes the place of
element `i` and the last slot goes. -/
def swapRemove {α : Type} (l : List α) (i : Nat) : List α :=
  match l.getLast? with
  | none => []
  | some last => l.dropLast.set i last

theorem swapRemove_append_singleton {α : Type} (l : List α) (last : α) (i : Nat) :
    swapRemove (l ++ [last]) i = l.set i last := by
  simp only [swapRemove, List.getLast?_concat, List.dropLast_concat]

/-- Removing by a swap with the last element reorders the list without element `i`. -/
theorem swapRemove_perm {α : Type} {l : List α} {i : Nat} (hi : i < l.length) :
    (swapRemove l i).Perm (l.eraseIdx i) := by
  obtain ⟨l', last, rfl⟩ : ∃ l' last, l = l' ++ [last] :=
    ⟨l.dropLast, l.getLast (List.ne_nil_of_length_pos (by omega)),
      (List.dropLast_append_getLast _).symm⟩
  rw [swapRemove_append_singleton]
  rw [List.length_append, List.length_singleton] at hi
  rcases Nat.lt_or_ge i l'.length with h | h
  · rw [List.eraseIdx_append_of_lt_length h, List.set_eq_take_append_cons_drop, if_pos h,
      List.eraseIdx_eq_take_drop_succ, List.append_assoc]
    exact List.Perm.append_left _ (List.perm_append_singleton _ _).symm
  · obtain rfl : i = l'.length := by omega
    rw [List.set_eq_take_append_cons_drop, if_neg (lt_irrefl _), List.eraseIdx_append_of_length_le
      le_rfl, Nat.sub_self, List.eraseIdx_cons_zero, List.append_nil]

/-- Removing element `i` of a list of values of `0, …, n - 1`. -/
theorem swapRemove_map_range {α : Type} (f : Nat → α) {n i : Nat} (hi : i < n) :
    swapRemove ((List.range n).map f) i =
      (List.range (n - 1)).map fun j ↦ if j = i then f (n - 1) else f j := by
  obtain ⟨m, rfl⟩ : ∃ m, n = m + 1 := ⟨n - 1, by omega⟩
  rw [List.range_succ, List.map_append, List.map_singleton, swapRemove_append_singleton,
    Nat.add_sub_cancel]
  refine List.ext_getElem (by simp) fun j h₁ h₂ ↦ ?_
  simp only [List.getElem_set, List.getElem_map, List.getElem_range]
  split_ifs <;> first | rfl | omega

/-- A name is looked up in vain exactly when no pair has it. -/
theorem lookup_eq_none_iff {β : Type} {l : List (List UInt8 × β)} {a : List UInt8} :
    l.lookup a = none ↔ a ∉ l.map Prod.fst := by
  induction l with
  | nil => simp
  | cons r l ih =>
    obtain ⟨k, b⟩ := r
    rw [List.lookup_cons]
    by_cases h : a = k
    · subst h
      simp
    · rw [beq_false_of_ne h]
      simp [ih, h]

/-- Element `i` counted apart from the others. -/
theorem countP_eq_countP_eraseIdx {α : Type} (p : α → Bool) {l : List α} {i : Nat}
    (hi : i < l.length) :
    l.countP p = (l.eraseIdx i).countP p + if p l[i] then 1 else 0 := by
  conv_lhs => rw [← List.take_append_drop i l, ← List.getElem_cons_drop l i hi]
  rw [List.eraseIdx_eq_take_drop_succ, List.countP_append, List.countP_append,
    List.countP_cons]
  omega

namespace DiskInode

variable (d : DiskInode) (store : Nat → Block)

/-- The 32 bytes of record `i` of a directory. -/
def recordBytes (i : Nat) : List UInt8 := d.bytesIn store (direntSz * i) (direntSz * i + direntSz)

/-- Record `i` of a directory. -/
def entry (i : Nat) : DirEntry := DirEntry.ofBytes (d.recordBytes store i)

/-- Record `i` as a name and an inode id. -/
def record (i : Nat) : List UInt8 × Nat := ((d.entry store i).nameOf, (d.entry store i).inodeId)

/-- The directory as the list of its records: the first `size / DIRENT_SZ`. -/
def records : List (List UInt8 × Nat) := (List.range (d.size / direntSz)).map (d.record store)

theorem length_recordBytes (i : Nat) : (d.recordBytes store i).length = direntSz := by
  simp [recordBytes, length_bytesIn]

theorem getD_recordBytes (i : Nat) {k : Nat} (hk : k < direntSz) :
    (d.recordBytes store i).getD k 0 = d.byteAt store (direntSz * i + k) := by
  rw [List.getD_eq_getElem _ _ (by rwa [length_recordBytes])]
  simp [recordBytes, bytesIn]

theorem length_name_entry (i : Nat) : (d.entry store i).name.length = nameCapacity :=
  DirEntry.length_name_ofBytes (by rw [length_recordBytes])

@[simp] theorem length_records : (d.records store).length = d.size / direntSz := by
  simp [records]

theorem getElem_records {i : Nat} (hi : i < (d.records store).length) :
    (d.records store)[i] = d.record store i := by
  simp [records]

variable {d store} in
theorem bytesIn_congr {d' : DiskInode} {store' : Nat → Block} {a b : Nat}
    (h : ∀ j, a ≤ j → j < b → d'.byteAt store' j = d.byteAt store j) :
    d'.bytesIn store' a b = d.bytesIn store a b :=
  List.map_congr_left fun j hj ↦ by
    rw [List.mem_range'_1] at hj
    exact h j hj.1 (by omega)

variable {d store} in
/-- A record reads as another when its bytes do. -/
theorem record_congr {d' : DiskInode} {store' : Nat → Block} {i j : Nat}
    (h : ∀ k < direntSz, d'.byteAt store' (direntSz * i + k) = d.byteAt store (direntSz * j + k)) :
    d'.record store' i = d.record store j := by
  have : d'.recordBytes store' i = d.recordBytes store j := by
    refine List.ext_getElem (by rw [length_recordBytes, length_recordBytes]) fun k hk _ ↦ ?_
    rw [length_recordBytes] at hk
    simp only [recordBytes, bytesIn, List.getElem_map, List.getElem_range', Nat.one_mul]
    exact h k hk
  rw [record, record, entry, entry, this]

variable {d store} in
/-- A directory reads the same records where its bytes read the same. -/
theorem records_congr {store' : Nat → Block}
    (h : ∀ j < d.size, d.byteAt store' j = d.byteAt store j) : d.records store' = d.records store :=
  List.map_congr_left fun i hi ↦ record_congr fun k hk ↦ h _ (by
    rw [List.mem_range] at hi
    simp only [direntSz] at *
    omega)

theorem inodeId_lt_of_mem_records {r : List UInt8 × Nat} (h : r ∈ d.records store) :
    r.2 < 2 ^ 32 := by
  obtain ⟨i, -, rfl⟩ := List.mem_map.mp h
  exact DirEntry.inodeId_ofBytes_lt _

/-- `DiskInode::read_at` of a whole record below the size fills the 32-byte buffer with it. -/
theorem runStore_readAt_record (hmax : d.size ≤ maxDataBlocks * blockSz) {i : Nat}
    (hi : i < d.size / direntSz) {buf : List UInt8} (hbuf : buf.length = direntSz) :
    (d.readAt (direntSz * i) buf).runStore store =
      .ok ((direntSz, d.recordBytes store i), store) := by
  have h : direntSz * i + direntSz ≤ d.size := by simp only [direntSz] at *; omega
  rw [d.runStore_readAt store hmax, hbuf, min_eq_left h, Nat.add_sub_cancel_left,
    copyFromSlice_zero_of_length_eq (by rw [length_bytesIn]; omega)]
  rfl

section Loops

variable {d store} (hmax : d.size ≤ maxDataBlocks * blockSz)
include hmax

/-- The loop of `find_inode_id` over the records `is`: the inode id of the first of them with the
name. -/
theorem runStore_findInodeIdLoop (name : List UInt8) :
    ∀ (is : List Nat) (dirent : DirEntry), dirent.name.length = nameCapacity →
      (∀ i ∈ is, i < d.size / direntSz) →
      (Inode.findInodeIdLoop name d dirent is).runStore store =
        .ok ((is.map (d.record store)).lookup name, store)
  | [], _, _, _ => by simp [Inode.findInodeIdLoop]
  | i :: is, dirent, hname, his => by
    simp only [Inode.findInodeIdLoop, BlockIo.bind_eq]
    rw [BlockIo.runStore_bind_of_ok _ (d.runStore_readAt_record store hmax
      (his i (List.mem_cons_self _ _)) (DirEntry.length_asBytes hname)), if_pos rfl]
    rw [show DirEntry.ofBytes (d.recordBytes store i) = d.entry store i from rfl, List.map_cons,
      record, List.lookup_cons]
    by_cases h : (d.entry store i).nameOf = name
    · simp [h]
    · rw [if_neg h, runStore_findInodeIdLoop name is _ (d.length_name_entry store i)
        fun j hj ↦ his j (List.mem_cons_of_mem _ hj)]
      rw [beq_false_of_ne (Ne.symm h)]

/-- The loop of `ls`: the names of the records `is`. -/
theorem runStore_lsLoop : ∀ (is : List Nat), (∀ i ∈ is, i < d.size / direntSz) →
    (Inode.lsLoop d is).runStore store = .ok (is.map fun i ↦ (d.record store i).1, store)
  | [], _ => by simp [Inode.lsLoop]
  | i :: is, his => by
    simp only [Inode.lsLoop, BlockIo.bind_eq, BlockIo.pure_eq]
    rw [Nat.mul_comm, BlockIo.runStore_bind_of_ok _ (d.runStore_readAt_record store hmax
      (his i (List.mem_cons_self _ _)) (DirEntry.length_asBytes (by rfl))), if_pos rfl,
      BlockIo.runStore_bind_of_ok _ (runStore_lsLoop is fun j hj ↦ his j (List.mem_cons_of_mem _ hj))]
    rfl

/-- The loop of `get_link_num`: the number of the records `is` whose inode lives at the
address. -/
theorem runStore_linkNumLoop (fs : EasyFileSystem) (blockId blockOffset : Nat) :
    ∀ (is : List Nat) (buf : DirEntry), buf.name.length = nameCapacity →
      (∀ i ∈ is, i < d.size / direntSz) →
      (Inode.linkNumLoop fs d blockId blockOffset buf is).runStore store =
        .ok ((is.map (d.record store)).countP
          (fun r ↦ fs.getDiskInodePos r.2 = (blockId, blockOffset)), store)
  | [], _, _, _ => by simp [Inode.linkNumLoop]
  | i :: is, buf, hname, his => by
    simp only [Inode.linkNumLoop, BlockIo.bind_eq, BlockIo.pure_eq]
    rw [BlockIo.runStore_bind_of_ok _ (d.runStore_readAt_record store hmax
      (his i (List.mem_cons_self _ _)) (DirEntry.length_asBytes hname)), if_pos rfl]
    dsimp only
    rw [show DirEntry.ofBytes (d.recordBytes store i) = d.entry store i from rfl,
      BlockIo.runStore_bind_of_ok _ (runStore_linkNumLoop fs blockId blockOffset is _
        (d.length_name_entry store i) fun j hj ↦ his j (List.mem_cons_of_mem _ hj))]
    simp only [BlockIo.runStore_pure, List.map_cons, List.countP_cons]
    split_ifs <;> simp_all [record, entry]

/-- The loop of the closure of `unlink` over records none of which has the name returns the
record as it was and writes nothing. -/
theorem runStore_unlinkLoop_of_forall (name : List UInt8) (fileCount : Nat) :
    ∀ (is : List Nat) (buf : DirEntry), buf.name.length = nameCapacity →
      (∀ i ∈ is, i < d.size / direntSz ∧ (d.record store i).1 ≠ name) →
      (Inode.unlinkLoop name fileCount d buf is).runStore store = .ok (d, store)
  | [], _, _, _ => by simp [Inode.unlinkLoop]
  | i :: is, buf, hname, his => by
    obtain ⟨hi, hne⟩ := his i (List.mem_cons_self _ _)
    simp only [Inode.unlinkLoop, BlockIo.bind_eq]
    rw [BlockIo.runStore_bind_of_ok _ (d.runStore_readAt_record store hmax hi
      (DirEntry.length_asBytes hname))]
    rw [if_neg fun h ↦ hne h.2]
    exact runStore_unlinkLoop_of_forall name fileCount is _ (d.length_name_entry store i)
      fun j hj ↦ his j (List.mem_cons_of_mem _ hj)

/-- The loop of the closure of `unlink` reaching the first record `i` with the name: the last
record of the directory is copied over it and the directory loses one record. -/
theorem runStore_unlinkLoop_found (name : List UInt8) {i : Nat} (hi : i < d.size / direntSz)
    (hname : (d.record store i).1 = name) (post : List Nat) :
    ∀ (pre : List Nat) (buf : DirEntry), buf.name.length = nameCapacity →
      (∀ j ∈ pre, j < d.size / direntSz ∧ (d.record store j).1 ≠ name) →
      (Inode.unlinkLoop name (d.size / direntSz) d buf (pre ++ i :: post)).runStore store =
        (do
          let _ ← d.writeAt (direntSz * i) (d.recordBytes store (d.size / direntSz - 1))
          pure { d with size := d.size - direntSz } : BlockIo DiskInode).runStore store
  | [], buf, hbuf, _ => by
    simp only [List.nil_append, Inode.unlinkLoop, BlockIo.bind_eq]
    rw [BlockIo.runStore_bind_of_ok _ (d.runStore_readAt_record store hmax hi
      (DirEntry.length_asBytes hbuf))]
    rw [if_pos ⟨rfl, hname⟩, BlockIo.runStore_bind_of_ok _ (d.runStore_readAt_record store hmax (by omega)
      (DirEntry.length_asBytes (by rfl)))]
  | j :: pre, buf, hbuf, hpre => by
    obtain ⟨hj, hne⟩ := hpre j (List.mem_cons_self _ _)
    simp only [List.cons_append, Inode.unlinkLoop, BlockIo.bind_eq]
    rw [BlockIo.runStore_bind_of_ok _ (d.runStore_readAt_record store hmax hj
      (DirEntry.length_asBytes hbuf))]
    rw [if_neg fun h ↦ hne h.2]
    exact runStore_unlinkLoop_found name hi hname post pre _ (d.length_name_entry store j)
      fun k hk ↦ hpre k (List.mem_cons_of_mem _ hk)

end Loops

end DiskInode

end Rcore.EasyFs
