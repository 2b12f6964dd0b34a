import Rcore.Codec
import Mathlib.Data.Nat.Bitwise
import Mathlib.Logic.Function.Basic

/-!
# Sv39 page numbers, page-table entries and physical memory

`page_table.rs` works on the page numbers and addresses of `address.rs`, which is absent from
the repository. What the page table uses of it is modelled from the Sv39 layout: a virtual
page number has 27 bits and splits into three 9-bit indexes, most significant first
(`VirtPageNum::indexes`); a physical page number has 44 bits (`From<usize>` masks to them);
a page is 4096 bytes; and `get_pte_array` reinterprets a physical page as
`[PageTableEntry; 512]` of little-endian `usize`.

`PageTableEntry` packs a page number above ten flag bits (`PageTableEntry::new`, `ppn`,
`flags`). Physical memory is byte-addressed by page and offset, and `PhysMem.pte` and
`PhysMem.setPte` read and write one entry in place: `pte_setPte` and `pte_setPte_of_ne` are
the whole interface that the page table uses, together with `pte_zeroPage` for the pages
`frame_alloc` hands out.
-/

set_option autoImplicit false
set_option relaxedAutoImplicit false

namespace Rcore.Os

/-- Modelled from the spec: `VirtPageNum` is declared in the absent `address.rs`; an Sv39
virtual page number has 27 bits. -/
structure VirtPageNum where
  val : Nat
  lt : val < 2 ^ 27
  deriving DecidableEq, Repr

/-- Modelled from the spec: `PhysPageNum` is declared in the absent `address.rs`; an Sv39
physical page number has 44 bits. -/
@[ext] structure PhysPageNum where
  val : Nat
  lt : val < 2 ^ 44
  deriving DecidableEq, Repr

/-- Modelled from the spec: `From<usize> for PhysPageNum` keeps the low 44 bits. -/
def PhysPageNum.ofNat (v : Nat) : PhysPageNum :=
  ⟨v % 2 ^ 44, Nat.mod_lt _ (Nat.two_pow_pos 44)⟩

theorem PhysPageNum.ofNat_val (p : PhysPageNum) : PhysPageNum.ofNat p.val = p :=
  PhysPageNum.ext (Nat.mod_eq_of_lt p.lt)

namespace VirtPageNum

/-- Modelled from the spec: index `level` of the three-level walk, `9 * (2 - level)` bits up. -/
def index (vpn : VirtPageNum) (level : Nat) : Nat := vpn.val >>> (9 * (2 - level)) &&& 511

/-- Modelled from the spec: `VirtPageNum::indexes`, the Sv39 indexes most significant first. -/
def indexes (vpn : VirtPageNum) : List Nat := [vpn.index 0, vpn.index 1, vpn.index 2]

theorem index_eq (vpn : VirtPageNum) (level : Nat) :
    vpn.index level = vpn.val / 2 ^ (9 * (2 - level)) % 512 := by
  rw [index, Nat.shiftRight_eq_div_pow, show (511 : Nat) = 2 ^ 9 - 1 from rfl,
    Nat.and_pow_two_sub_one_eq_mod]

/-- A page number is determined by its three indexes. -/
theorem ext_index {v w : VirtPageNum} (h₀ : v.index 0 = w.index 0) (h₁ : v.index 1 = w.index 1)
    (h₂ : v.index 2 = w.index 2) : v = w := by
  obtain ⟨v, hv⟩ := v
  obtain ⟨w, hw⟩ := w
  simp only [index_eq, Nat.reduceSub, Nat.reduceMul, Nat.reducePow] at h₀ h₁ h₂ hv hw
  simp only [mk.injEq]
  omega

end VirtPageNum

/-- `PTEFlags::V`. -/
def PTEFlags.V : UInt8 := (1 : UInt8) <<< 0

theorem uint8_toNat_ofNat (n : Nat) : (UInt8.ofNat n).toNat = n % 256 := BitVec.toNat_ofNat _ _

theorem uint8_toNat_or (a b : UInt8) : (a ||| b).toNat = a.toNat ||| b.toNat :=
  BitVec.toNat_or _ _

/-- `PageTableEntry`: a `usize` of a page number above ten flag bits. -/
structure PageTableEntry where
  bits : Nat
  deriving DecidableEq, Repr

namespace PageTableEntry

/-- `PageTableEntry::new`. -/
def new (ppn : PhysPageNum) (flags : UInt8) : PageTableEntry :=
  ⟨ppn.val <<< 10 ||| flags.toNat⟩

/-- `PageTableEntry::empty`. -/
def empty : PageTableEntry := ⟨0⟩

/-- `PageTableEntry::ppn`. -/
def ppn (pte : PageTableEntry) : PhysPageNum :=
  PhysPageNum.ofNat (pte.bits >>> 10 &&& (1 <<< 44) - 1)

/-- `PageTableEntry::flags`: `PTEFlags::from_bits(bits as u8).unwrap()`; every `u8` is a set of
the eight declared flags, so the `unwrap` never fails. -/
def flags (pte : PageTableEntry) : UInt8 := UInt8.ofNat pte.bits

/-- `PageTableEntry::is_valid`. -/
def isValid (pte : PageTableEntry) : Bool := pte.flags &&& PTEFlags.V != 0

/-- An entry is valid exactly when bit 0 of its bits is set. -/
theorem isValid_iff (pte : PageTableEntry) : pte.isValid ↔ pte.bits % 2 = 1 := by
  have h : (pte.flags &&& PTEFlags.V).toNat = pte.bits % 2 := by
    rw [UInt8.and_toNat, flags, uint8_toNat_ofNat, show PTEFlags.V.toNat = 1 from rfl,
      Nat.and_one_is_mod, Nat.mod_mod_of_dvd _ (by decide)]
  rw [isValid, bne_iff_ne, ne_eq]
  constructor
  · intro hne
    by_contra hb
    exact hne (UInt8.toNat.inj (by rw [h, UInt8.toNat_zero]; omega))
  · intro hb he
    have := congrArg UInt8.toNat he
    rw [h, UInt8.toNat_zero] at this
    omega

theorem bits_new (ppn : PhysPageNum) (flags : UInt8) :
    (new ppn flags).bits = ppn.val * 1024 + flags.toNat := by
  have hf : flags.toNat < 2 ^ 10 := Nat.lt_trans flags.toNat_lt_size (by decide)
  rw [new, Nat.shiftLeft_eq, Nat.mul_comm, ← Nat.mul_add_lt_is_or hf]

theorem bits_new_lt (ppn : PhysPageNum) (flags : UInt8) : (new ppn flags).bits < 2 ^ 64 := by
  have := ppn.lt
  have : flags.toNat < 256 := flags.toNat_lt_size
  rw [bits_new]
  omega

@[simp] theorem ppn_new (ppn : PhysPageNum) (flags : UInt8) : (new ppn flags).ppn = ppn := by
  have : flags.toNat < 256 := flags.toNat_lt_size
  rw [PageTableEntry.ppn, bits_new, Nat.shiftRight_eq_div_pow, Nat.one_shiftLeft,
    Nat.and_pow_two_sub_one_eq_mod,
    show (ppn.val * 1024 + flags.toNat) / 2 ^ 10 = ppn.val by omega, Nat.mod_eq_of_lt ppn.lt]
  exact PhysPageNum.ofNat_val ppn

@[simp] theorem flags_new (ppn : PhysPageNum) (flags : UInt8) :
    (new ppn flags).flags = flags := by
  have : flags.toNat < 256 := flags.toNat_lt_size
  apply UInt8.toNat.inj
  rw [PageTableEntry.flags, uint8_toNat_ofNat, bits_new]
  omega

theorem isValid_new_V (ppn : PhysPageNum) : (new ppn PTEFlags.V).isValid := by
  rw [isValid_iff, bits_new, show PTEFlags.V.toNat = 1 from rfl]
  omega

theorem isValid_new_or_V (ppn : PhysPageNum) (flags : UInt8) :
    (new ppn (flags ||| PTEFlags.V)).isValid := by
  have h : (flags.toNat ||| 1) % 2 = 1 := by
    rw [Nat.mod_two_eq_one_iff_testBit_zero, Nat.testBit_or]
    simp
  rw [isValid_iff, bits_new, uint8_toNat_or, show PTEFlags.V.toNat = 1 from rfl]
  omega

@[simp] theorem isValid_empty : empty.isValid = false := by decide

end PageTableEntry

/-- Physical memory: byte `offset` of physical page `ppn`. -/
def PhysMem : Type := Nat → Nat → UInt8

namespace PhysMem

/-- `ppn.get_pte_array()[idx]`: the eight little-endian bytes of entry `idx` of the page. -/
def pte (mem : PhysMem) (ppn : PhysPageNum) (idx : Nat) : PageTableEntry :=
  ⟨leValue ((List.range 8).map fun k ↦ mem ppn.val (idx * 8 + k))⟩

/-- `ppn.get_pte_array()[idx] = pte`. -/
def setPte (mem : PhysMem) (ppn : PhysPageNum) (idx : Nat) (pte : PageTableEntry) : PhysMem :=
  Function.update mem ppn.val fun offset ↦
    if idx * 8 ≤ offset ∧ offset < idx * 8 + 8 then (leBytes 8 pte.bits).getD (offset - idx * 8) 0
    else mem ppn.val offset

/-- A physical page cleared to zero, as `FrameTracker::new` leaves it. -/
def zeroPage (mem : PhysMem) (ppn : PhysPageNum) : PhysMem :=
  Function.update mem ppn.val fun _ ↦ 0

/-- Reading back the entry just written. -/
theorem pte_setPte (mem : PhysMem) (ppn : PhysPageNum) (idx : Nat) {pte : PageTableEntry}
    (h : pte.bits < 2 ^ 64) : (mem.setPte ppn idx pte).pte ppn idx = pte := by
  have hbytes : ((List.range 8).map fun k ↦ (mem.setPte ppn idx pte) ppn.val (idx * 8 + k)) =
      leBytes 8 pte.bits := by
    apply List.ext_getElem (by simp)
    intro k hk _
    simp only [List.length_map, List.length_range] at hk
    simp [setPte, hk, List.getD_eq_getElem?_getD]
  rw [PhysMem.pte, hbytes, leValue_leBytes, Nat.mod_eq_of_lt (by simpa using h)]

/-- Writing an entry leaves every other entry. -/
theorem pte_setPte_of_ne (mem : PhysMem) {ppn ppn' : PhysPageNum} {idx idx' : Nat}
    (pte : PageTableEntry) (h : ppn' ≠ ppn ∨ idx' ≠ idx) :
    (mem.setPte ppn idx pte).pte ppn' idx' = mem.pte ppn' idx' := by
  rw [PhysMem.pte, PhysMem.pte]
  refine congrArg _ (congrArg leValue (List.map_congr_left fun k hk ↦ ?_))
  have hk : k < 8 := List.mem_range.mp hk
  by_cases hp : ppn'.val = ppn.val
  · have hidx : idx' ≠ idx := h.resolve_left fun hne ↦ hne (PhysPageNum.ext hp)
    rw [setPte, hp, Function.update_same, if_neg (by omega)]
  · rw [setPte, Function.update_noteq hp]

theorem pte_zeroPage (mem : PhysMem) (ppn ppn' : PhysPageNum) (idx : Nat) :
    (mem.zeroPage ppn).pte ppn' idx = if ppn' = ppn then .empty else mem.pte ppn' idx := by
  split_ifs with h
  · subst h; simp [PhysMem.pte, zeroPage, leValue, PageTableEntry.empty]
  · rw [PhysMem.pte, PhysMem.pte, zeroPage]
    refine congrArg _ (congrArg leValue (List.map_congr_left fun k _ ↦ ?_))
    rw [Function.update_noteq fun e ↦ h (PhysPageNum.ext e)]

end PhysMem

end Rcore.Os
