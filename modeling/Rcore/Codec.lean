import Mathlib.Data.List.Basic
import Mathlib.Algebra.Order.Group.Nat
import Mathlib.Data.Nat.Defs

/-!
# Little-endian words

The on-disk structures of easy-fs are `#[repr(C)]` arrays and records of `u32` and `u64`
reinterpreted in place from the bytes of a block (`[u64; 64]` for a bitmap block, `[u32; 128]`
for an index block, the fields of a disk inode or a directory entry), and a page-table page is
a `[PageTableEntry; 512]` of `usize` reinterpreted from the bytes of a physical page, all on a
little-endian machine. `leValue` and `leBytes` read and write one word; `words` and `unwords`
read and write an array of them. Reading back what was written gives the words back
(`words_unwords`, `leValue_leBytes`), which is all the bitmap, the inode layer and the page
table need from the layout.
-/

set_option autoImplicit false
set_option relaxedAutoImplicit false

namespace Rcore

/-- The little-endian value of a byte string. -/
def leValue : List UInt8 → Nat
  | [] => 0
  | b :: bs => b.toNat + 256 * leValue bs

/-- The `width` little-endian bytes of a value, modulo `256 ^ width`. -/
def leBytes : Nat → Nat → List UInt8
  | 0, _ => []
  | width + 1, x => UInt8.ofNat (x % 256) :: leBytes width (x / 256)

@[simp] theorem length_leBytes (width x : Nat) : (leBytes width x).length = width := by
  induction width generalizing x with
  | zero => rfl
  | succ width ih => simp [leBytes, ih]

theorem leValue_leBytes (width x : Nat) : leValue (leBytes width x) = x % 256 ^ width := by
  induction width generalizing x with
  | zero => simp [leBytes, leValue, Nat.mod_one]
  | succ width ih =>
    have hb : (UInt8.ofNat (x % 256)).toNat = x % 256 := by
      simp [UInt8.toNat, UInt8.ofNat, Fin.ofNat, Nat.mod_mod]
    rw [leBytes, leValue, ih, hb, Nat.pow_succ, Nat.mul_comm (256 ^ width), Nat.mod_mul]

theorem leValue_lt (bs : List UInt8) : leValue bs < 256 ^ bs.length := by
  induction bs with
  | nil => simp [leValue]
  | cons b bs ih =>
    have : b.toNat < 256 := b.val.isLt
    rw [leValue, List.length_cons, Nat.pow_succ]
    have : 256 * leValue bs ≤ 256 * (256 ^ bs.length - 1) := Nat.mul_le_mul_left _ (by omega)
    have : 256 * (256 ^ bs.length - 1) + 256 = 256 ^ bs.length * 256 := by
      have : 1 ≤ 256 ^ bs.length := Nat.one_le_pow _ _ (by decide)
      rw [Nat.mul_sub, Nat.mul_comm]; omega
    omega

/-- The array of `count` words of `width` bytes stored in `bytes`. -/
def words (width count : Nat) (bytes : List UInt8) : List Nat :=
  (List.range count).map fun i ↦ leValue ((bytes.drop (width * i)).take width)

/-- The bytes of an array of words of `width` bytes. -/
def unwords (width : Nat) (ws : List Nat) : List UInt8 :=
  ws.flatMap (leBytes width)

@[simp] theorem length_words (width count : Nat) (bytes : List UInt8) :
    (words width count bytes).length = count := by
  simp [words]

@[simp] theorem length_unwords (width : Nat) (ws : List Nat) :
    (unwords width ws).length = width * ws.length := by
  induction ws with
  | nil => rfl
  | cons w ws ih =>
    simp only [unwords, List.flatMap_cons, List.length_append, length_leBytes] at ih ⊢
    rw [ih, List.length_cons, Nat.mul_succ]; omega

theorem getElem_words (width count : Nat) (bytes : List UInt8) (i : Nat)
    (h : i < (words width count bytes).length) :
    (words width count bytes)[i] = leValue ((bytes.drop (width * i)).take width) := by
  simp [words]

theorem words_lt (width count : Nat) (bytes : List UInt8) :
    ∀ w ∈ words width count bytes, w < 256 ^ width := by
  intro w hw
  obtain ⟨i, -, rfl⟩ := List.mem_map.mp hw
  calc _ < 256 ^ ((bytes.drop (width * i)).take width).length := leValue_lt _
    _ ≤ 256 ^ width := Nat.pow_le_pow_right (by decide) (by simp)

theorem drop_unwords (width : Nat) :
    ∀ (ws : List Nat) (i : Nat), (unwords width ws).drop (width * i) = unwords width (ws.drop i)
  | [], i => by simp [unwords]
  | w :: ws, 0 => by simp
  | w :: ws, i + 1 => by
    rw [Nat.mul_succ, Nat.add_comm, ← List.drop_drop, List.drop_succ_cons]
    simp only [unwords, List.flatMap_cons]
    rw [List.drop_left' (length_leBytes _ _)]
    exact drop_unwords width ws i

/-- Reading back an array of words written in place gives the words. -/
theorem words_unwords {width count : Nat} {ws : List Nat} (h : ws.length = count)
    (hb : ∀ w ∈ ws, w < 256 ^ width) : words width count (unwords width ws) = ws := by
  apply List.ext_getElem (by simp [h])
  intro i hi hi'
  rw [getElem_words, drop_unwords, List.drop_eq_getElem_cons hi']
  simp only [unwords, List.flatMap_cons]
  rw [List.take_left' (length_leBytes _ _), leValue_leBytes,
    Nat.mod_eq_of_lt (hb _ (List.getElem_mem _))]

theorem uint8_ofNat_toNat (b : UInt8) : UInt8.ofNat b.toNat = b :=
  UInt8.toNat.inj (by
    rw [show (UInt8.ofNat b.toNat).toNat = b.toNat % 256 from BitVec.toNat_ofNat _ _]
    exact Nat.mod_eq_of_lt b.toNat_lt_size)

theorem leBytes_leValue : ∀ {bs : List UInt8} {width : Nat}, bs.length = width →
    leBytes width (leValue bs) = bs
  | [], _, h => by subst h; rfl
  | b :: bs, _, h => by
    subst h
    have hb : b.toNat < 256 := b.toNat_lt_size
    have h1 : (b.toNat + 256 * leValue bs) % 256 = b.toNat := by omega
    have h2 : (b.toNat + 256 * leValue bs) / 256 = leValue bs := by omega
    rw [List.length_cons, leBytes, leValue, h1, h2, leBytes_leValue rfl, uint8_ofNat_toNat]

theorem words_succ (width count : Nat) (bytes : List UInt8) :
    words width (count + 1) bytes =
      leValue (bytes.take width) :: words width count (bytes.drop width) := by
  simp only [words, List.range_succ_eq_map, List.map_cons, List.map_map, Nat.mul_zero,
    List.drop_zero]
  congr 1
  apply List.map_congr_left
  intro i _
  simp [Function.comp, List.drop_drop, Nat.mul_succ, Nat.add_comm]

/-- Writing back the words read from bytes gives the bytes. -/
theorem unwords_words (width : Nat) : ∀ (count : Nat) (bytes : List UInt8),
    bytes.length = width * count → unwords width (words width count bytes) = bytes
  | 0, bytes, h => by simp_all [words, unwords]
  | count + 1, bytes, h => by
    rw [words_succ, unwords, List.flatMap_cons, ← unwords,
      unwords_words width count _ (by simp [h, Nat.mul_succ]),
      leBytes_leValue (by simp [h, Nat.mul_succ]), List.take_append_drop]

/-- The message of `Option::unwrap` on `None`, the panic of every `.unwrap()` of the modelled
code. -/
def unwrapNoneMsg : String := "called `Option::unwrap()` on a `None` value"

end Rcore
