import Rcore.Os.PageTable
import Mathlib.Tactic.IntervalCases

/-!
# `translated_byte_buffer` and `Stdout::write`

`translated_byte_buffer` cuts the user range `[ptr, ptr + len)` at page boundaries and returns,
page after page, a slice of the physical page that `translate` gives for the page.
`Stdout::write` prints each slice of such a buffer with `core::str::from_utf8(*buffer).unwrap()`
and returns the length of the whole buffer.

A returned `&'static mut [u8]` is kept as the page and the offset range it borrows
(`ByteSlice`), so what the kernel reaches through it is explicit. The loop steps over `usize`
addresses that `VirtAddr::from` masks to 39 bits and `usize::from` sign-extends back; outside
the lower half of Sv39 it need not terminate, so it is modelled with fuel, and
`translatedByteBuffer_spec` shows that below `2 ^ 38` enough fuel gives its result.
-/

set_option autoImplicit false
set_option relaxedAutoImplicit false


namespace Rcore.Os

/-- Results of `Except` compare by constructor and value, so that the outcomes of the model can be
decided. -/
instance exceptDecidableEq {ε α : Type} [DecidableEq ε] [DecidableEq α] :
    DecidableEq (Except ε α)
  | .error a, .error b =>
    if h : a = b then isTrue (h ▸ rfl) else isFalse fun e ↦ h (Except.error.inj e)
  | .ok a, .ok b => if h : a = b then isTrue (h ▸ rfl) else isFalse fun e ↦ h (Except.ok.inj e)
  | .error _, .ok _ => isFalse fun e ↦ Except.noConfusion e
  | .ok _, .error _ => isFalse fun e ↦ Except.noConfusion e

/-- Modelled from the spec: `PAGE_SIZE`, declared in the absent `config.rs`. -/
def pageSize : Nat := 4096

/-- `PTEFlags::R`. -/
def PTEFlags.R : UInt8 := (1 : UInt8) <<< 1

/-- `PTEFlags::W`. -/
def PTEFlags.W : UInt8 := (1 : UInt8) <<< 2

/-- `PTEFlags::U`. -/
def PTEFlags.U : UInt8 := (1 : UInt8) <<< 4

/-- Modelled from the spec: `VirtAddr` is declared in the absent `address.rs`; the addresses
`From<usize>` builds have the 39 bits of Sv39. -/
structure VirtAddr where
  val : Nat
  lt : val < 2 ^ 39

namespace VirtAddr

/-- Modelled from the spec: `From<usize> for VirtAddr` keeps the low 39 bits. -/
def ofUsize (v : Nat) : VirtAddr := ⟨v % 2 ^ 39, Nat.mod_lt _ (Nat.two_pow_pos 39)⟩

/-- Modelled from the spec: `From<VirtAddr> for usize` sign-extends bit 38 to 64 bits. -/
def toUsize (va : VirtAddr) : Nat :=
  if 2 ^ 38 ≤ va.val then va.val ||| (2 ^ 64 - 2 ^ 39) else va.val

/-- Modelled from the spec: `VirtAddr::floor`, the page of the address. -/
def floor (va : VirtAddr) : VirtPageNum :=
  ⟨va.val / pageSize, Nat.div_lt_of_lt_mul (by have := va.lt; simp only [pageSize]; omega)⟩

/-- Modelled from the spec: `VirtAddr::page_offset`. -/
def pageOffset (va : VirtAddr) : Nat := va.val &&& pageSize - 1

theorem val_ofUsize {v : Nat} (h : v < 2 ^ 39) : (ofUsize v).val = v := Nat.mod_eq_of_lt h

/-- Sign extension never lowers an address. -/
theorem le_toUsize (va : VirtAddr) : va.val ≤ va.toUsize := by
  unfold toUsize
  split_ifs
  · exact Nat.le_of_testBit fun i h ↦ by simp [Nat.testBit_or, h]
  · exact Nat.le_refl _

theorem pageOffset_eq (va : VirtAddr) : va.pageOffset = va.val % pageSize :=
  Nat.and_pow_two_sub_one_eq_mod _ 12

/-- Two addresses below `2 ^ 39` on one page have one `floor`. -/
theorem floor_ofUsize_congr {a b : Nat} (ha : a < 2 ^ 39) (hb : b < 2 ^ 39)
    (h : a / pageSize = b / pageSize) : (ofUsize a).floor = (ofUsize b).floor := by
  simp only [floor, val_ofUsize ha, val_ofUsize hb, h]

end VirtAddr

/-- A `&'static mut [u8]` that `translated_byte_buffer` returns: bytes `[lo, hi)` of physical
page `ppn`. -/
structure ByteSlice where
  ppn : PhysPageNum
  lo : Nat
  hi : Nat
  deriving DecidableEq, Repr

namespace ByteSlice

/-- `len()` of the slice. -/
def len (s : ByteSlice) : Nat := s.hi - s.lo

/-- The bytes the slice borrows. -/
def bytes (mem : PhysMem) (s : ByteSlice) : List UInt8 :=
  (List.range' s.lo s.len).map (mem s.ppn.val)

@[simp] theorem length_bytes (mem : PhysMem) (s : ByteSlice) : (s.bytes mem).length = s.len := by
  simp [bytes]

theorem length_flatMap_bytes (mem : PhysMem) (v : List ByteSlice) :
    (v.flatMap (bytes mem)).length = (v.map len).sum := by
  induction v with
  | nil => rfl
  | cons s v ih => simp [List.flatMap_cons, ih]

end ByteSlice

namespace PageTable

/-- `PageTable::from_token`: the root is the low 44 bits of `satp`, and the table owns no
frame. -/
def fromToken (satp : Nat) : PageTable :=
  { rootPpn := PhysPageNum.ofNat (satp &&& (1 <<< 44) - 1), frames := [] }

/-- `PageTable::token`: the Sv39 mode 8 above the root page number. -/
def token (pt : PageTable) : Nat := 8 <<< 60 ||| pt.rootPpn.val

/-- The byte that user address `a` leads to through `translate`: byte `a % PAGE_SIZE` of the
physical page of the leaf entry of its page. -/
def translatedByte (pt : PageTable) (mem : PhysMem) (a : Nat) : Option UInt8 :=
  (pt.translate mem (VirtAddr.ofUsize a).floor).map fun pte ↦ mem pte.ppn.val (a % pageSize)

end PageTable

/-- The `while start < end` loop of `translated_byte_buffer` from `start`, with the slices `v`
pushed so far; `none` once the fuel runs out. `VirtAddr::from(vpn)` after `vpn.step()` is the
start of the next page. -/
def translatedByteBufferLoop (pt : PageTable) (mem : PhysMem) (end_ : Nat) :
    Nat → Nat → List ByteSlice → Option (Except String (List ByteSlice))
  | 0, _, _ => none
  | fuel + 1, start, v =>
    if start < end_ then
      let startVa := VirtAddr.ofUsize start
      let vpn := startVa.floor
      match pt.translate mem vpn with
      | none => some (.error unwrapNoneMsg)
      | some pte =>
        let endVa : VirtAddr := ⟨min ((vpn.val + 1) * pageSize) (VirtAddr.ofUsize end_).val,
          Nat.lt_of_le_of_lt (Nat.min_le_right _ _) (VirtAddr.ofUsize end_).lt⟩
        let slice : ByteSlice :=
          if endVa.pageOffset = 0 then ⟨pte.ppn, startVa.pageOffset, pageSize⟩
          else ⟨pte.ppn, startVa.pageOffset, endVa.pageOffset⟩
        translatedByteBufferLoop pt mem end_ fuel endVa.toUsize (v ++ [slice])
    else some (.ok v)

/-- `translated_byte_buffer(token, ptr, len)` over physical memory `mem`; `start + len` wraps at
`2 ^ 64`. -/
def translatedByteBuffer (mem : PhysMem) (fuel token ptr len : Nat) :
    Option (Except String (List ByteSlice)) :=
  translatedByteBufferLoop (PageTable.fromToken token) mem ((ptr + len) % 2 ^ 64) fuel ptr []

/-! ### The slices of a range in the lower half -/

/-- The part of `[ptr, end_)` in virtual page `q`, as offsets in the page. -/
def pagePart (ptr end_ q : Nat) : Nat × Nat :=
  (max ptr (q * pageSize) - q * pageSize, min end_ ((q + 1) * pageSize) - q * pageSize)

/-- The number of pages `[ptr, end_)` overlaps. -/
def pagesSpanned (ptr end_ : Nat) : Nat :=
  if ptr < end_ then (end_ - 1) / pageSize + 1 - ptr / pageSize else 0

/-- The slice page `q` of `[ptr, end_)` should give: the part of the range in it, in the physical
page of the leaf entry `translate` gives for it. -/
def pageSlice (pt : PageTable) (mem : PhysMem) (ptr end_ q : Nat) : Option ByteSlice :=
  (pt.translate mem (VirtAddr.ofUsize (q * pageSize)).floor).map fun pte ↦
    ⟨pte.ppn, (pagePart ptr end_ q).1, (pagePart ptr end_ q).2⟩

/-- The part of the range in the page of its start begins at the start's offset. -/
theorem pagePart_first (start end_ : Nat) :
    pagePart start end_ (start / pageSize) =
      (start % pageSize,
        min end_ ((start / pageSize + 1) * pageSize) - start / pageSize * pageSize) := by
  have := Nat.div_mul_le_self start pageSize
  simp only [pagePart, max_eq_left this, Prod.mk.injEq, and_true]
  simp only [pageSize] at this ⊢
  omega

/-- Past the first page of the range, the part of a page does not depend on where the range
starts. -/
theorem pagePart_congr {ptr ptr' end_ q : Nat} (h : ptr ≤ q * pageSize)
    (h' : ptr' ≤ q * pageSize) : pagePart ptr end_ q = pagePart ptr' end_ q := by
  simp only [pagePart, max_eq_right h, max_eq_right h']

section Loop

variable (pt : PageTable) (mem : PhysMem) {end_ : Nat}

/-- A pass of the loop over a page the range runs past: the rest of the page, then the next
page. -/
theorem translatedByteBufferLoop_step {start : Nat}
    (hnext : (start / pageSize + 1) * pageSize < end_) (hend : end_ ≤ 2 ^ 38) {pte : PageTableEntry}
    (hpte : pt.translate mem (VirtAddr.ofUsize start).floor = some pte) (fuel : Nat)
    (v : List ByteSlice) :
    translatedByteBufferLoop pt mem end_ (fuel + 1) start v =
      translatedByteBufferLoop pt mem end_ fuel ((start / pageSize + 1) * pageSize)
        (v ++ [⟨pte.ppn, (pagePart start end_ (start / pageSize)).1,
          (pagePart start end_ (start / pageSize)).2⟩]) := by
  have hq := Nat.div_mul_le_self start pageSize
  simp only [pageSize] at hnext hend hq ⊢
  have hs : start < end_ := by omega
  rw [translatedByteBufferLoop, if_pos hs]
  simp only [hpte]
  simp only [VirtAddr.toUsize, VirtAddr.pageOffset_eq,
    VirtAddr.floor, VirtAddr.val_ofUsize (show start < 2 ^ 39 by omega),
    VirtAddr.val_ofUsize (show end_ < 2 ^ 39 by omega), pagePart, pageSize,
    min_eq_left hnext.le, min_eq_right hnext.le, max_eq_left hq]
  rw [if_neg (by omega), if_pos (by omega)]
  congr 4 <;> omega

/-- The last pass of the loop: the page where the range ends, cut at its end. -/
theorem translatedByteBufferLoop_last {start : Nat} (hs : start < end_)
    (hlast : end_ ≤ (start / pageSize + 1) * pageSize) (hend : end_ ≤ 2 ^ 38)
    {pte : PageTableEntry} (hpte : pt.translate mem (VirtAddr.ofUsize start).floor = some pte)
    (fuel : Nat) (v : List ByteSlice) :
    translatedByteBufferLoop pt mem end_ (fuel + 2) start v =
      some (.ok (v ++ [⟨pte.ppn, (pagePart start end_ (start / pageSize)).1,
        (pagePart start end_ (start / pageSize)).2⟩])) := by
  have hq := Nat.div_mul_le_self start pageSize
  have hstop : ∀ (va : VirtAddr) (w : List ByteSlice), va.val = end_ →
      translatedByteBufferLoop pt mem end_ (fuel + 1) va.toUsize w = some (.ok w) :=
    fun va _ hva ↦ by
      rw [translatedByteBufferLoop, if_neg (Nat.not_lt.mpr (hva ▸ va.le_toUsize))]
  simp only [pageSize] at hlast hend hq
  have hs' : start < 2 ^ 39 := by omega
  have he' : end_ < 2 ^ 39 := by omega
  rw [translatedByteBufferLoop, if_pos hs]
  simp only [hpte]
  rw [hstop]
  · simp only [VirtAddr.pageOffset_eq, VirtAddr.floor, VirtAddr.val_ofUsize hs',
      VirtAddr.val_ofUsize he', pagePart, pageSize, min_eq_left hlast, min_eq_right hlast,
      max_eq_left hq]
    split_ifs <;> simp only [Option.some.injEq, Except.ok.injEq, List.append_cancel_left_eq,
      List.cons.injEq, ByteSlice.mk.injEq, true_and, and_true] <;> omega
  · simp only [VirtAddr.floor, VirtAddr.val_ofUsize hs', VirtAddr.val_ofUsize he', pageSize]
    omega

theorem range'_split {s m n : Nat} (h₁ : s ≤ m) (h₂ : m ≤ n) :
    List.range' s (n - s) = List.range' s (m - s) ++ List.range' m (n - m) := by
  have h := List.range'_append_1 s (m - s) (n - m)
  rw [Nat.add_sub_cancel' h₁, Nat.sub_add_sub_cancel h₂ h₁] at h
  exact h.symm

/-- The slice of the page of `start` up to `stop` in that page borrows the bytes that
`[start, stop)` leads to. -/
theorem bytes_firstSlice {start stop : Nat} (hs : start ≤ stop)
    (hstop : stop ≤ (start / pageSize + 1) * pageSize) (h39 : stop < 2 ^ 39) {pte : PageTableEntry}
    (hpte : pt.translate mem (VirtAddr.ofUsize start).floor = some pte) :
    ((⟨pte.ppn, start % pageSize, stop - start / pageSize * pageSize⟩ : ByteSlice).bytes mem).map
      some = (List.range' start (stop - start)).map (pt.translatedByte mem) := by
  have hq := Nat.div_mul_le_self start pageSize
  simp only [pageSize] at hstop hq
  apply List.ext_getElem (by simp only [List.length_map, ByteSlice.length_bytes, ByteSlice.len,
    List.length_range', pageSize]; omega)
  intro i _ hi
  simp only [List.length_map, List.length_range'] at hi
  simp only [List.getElem_map, ByteSlice.bytes, List.getElem_range', PageTable.translatedByte,
    Nat.one_mul]
  rw [VirtAddr.floor_ofUsize_congr (by omega) (by omega)
    (show (start + i) / pageSize = start / pageSize by simp only [pageSize]; omega), hpte,
    Option.map_some']
  simp only [pageSize]
  congr 2
  omega

/-- The whole loop from `start` in the lower half, when every page of `[start, end_)` reaches a
leaf entry: `end_ - start + 1` passes suffice, and it pushes the slices of the pages in order,
whose bytes are the bytes the range leads to. -/
theorem translatedByteBufferLoop_run (hend : end_ ≤ 2 ^ 38) :
    ∀ fuel start (v : List ByteSlice), start ≤ end_ → end_ - start < fuel →
      (∀ a, start ≤ a → a < end_ → pt.translate mem (VirtAddr.ofUsize a).floor ≠ none) →
      ∃ w, translatedByteBufferLoop pt mem end_ fuel start v = some (.ok (v ++ w)) ∧
        w.map some = (List.range' (start / pageSize) (pagesSpanned start end_)).map
          (pageSlice pt mem start end_) ∧
        (w.flatMap (ByteSlice.bytes mem)).map some =
          (List.range' start (end_ - start)).map (pt.translatedByte mem) := by
  intro fuel
  induction fuel with
  | zero => intro _ _ _ h; omega
  | succ fuel ih =>
    intro start v hle hfuel hmap
    by_cases hs : start < end_
    case neg =>
      refine ⟨[], by rw [translatedByteBufferLoop, if_neg hs, List.append_nil], ?_, ?_⟩ <;>
        simp [pagesSpanned, hs, show end_ - start = 0 by omega]
    obtain ⟨pte, hpte⟩ := Option.ne_none_iff_exists'.mp (hmap start le_rfl hs)
    have hq := Nat.div_mul_le_self start pageSize
    have hq' : start < (start / pageSize + 1) * pageSize := by
      simp only [pageSize] at hq ⊢; omega
    have hfirst : pageSlice pt mem start end_ (start / pageSize) =
        some ⟨pte.ppn, (pagePart start end_ (start / pageSize)).1,
          (pagePart start end_ (start / pageSize)).2⟩ := by
      rw [pageSlice, VirtAddr.floor_ofUsize_congr (by simp only [pageSize] at hq ⊢; omega)
        (by omega) (Nat.mul_div_cancel _ (by decide)), hpte, Option.map_some']
    by_cases hnext : (start / pageSize + 1) * pageSize < end_
    case pos =>
      obtain ⟨w, hrun, hslices, hbytes⟩ := ih _ (v ++ [_]) hnext.le
        (by simp only [pageSize] at hq hfuel ⊢; omega)
        fun a h₁ h₂ ↦ hmap a (by simp only [pageSize] at hq h₁; omega) h₂
      have hspan : pagesSpanned start end_ =
          pagesSpanned ((start / pageSize + 1) * pageSize) end_ + 1 := by
        simp only [pagesSpanned, pageSize] at hnext ⊢
        rw [if_pos hs, if_pos hnext, Nat.mul_div_cancel _ (by decide)]
        omega
      refine ⟨_ :: w, by rw [translatedByteBufferLoop_step pt mem hnext hend hpte, hrun,
        List.append_assoc, List.singleton_append], ?_, ?_⟩
      · rw [List.map_cons, hslices, hspan, List.range'_succ, List.map_cons, hfirst,
          Nat.mul_div_cancel _ (by decide)]
        refine congrArg (List.cons _) (List.map_congr_left fun q hq' ↦ ?_)
        rw [pageSlice, pageSlice,
          @pagePart_congr start ((start / pageSize + 1) * pageSize) end_ q]
        · simp only [List.mem_range'_1, pageSize] at hq' ⊢
          omega
        · simp only [List.mem_range'_1, pageSize] at hq' ⊢
          omega
      · simp only [List.flatMap_cons, List.map_append, hbytes, pagePart_first,
          min_eq_right hnext.le]
        rw [bytes_firstSlice pt mem hq'.le le_rfl (by omega) hpte, ← List.map_append,
          ← range'_split hq'.le hnext.le]
    case neg =>
      obtain ⟨fuel, rfl⟩ : ∃ f, fuel = f + 1 := ⟨fuel - 1, by omega⟩
      refine ⟨_, translatedByteBufferLoop_last pt mem hs (by omega) hend hpte fuel v, ?_, ?_⟩
      · have hspan : pagesSpanned start end_ = 1 := by
          simp only [pagesSpanned, pageSize] at hnext hq ⊢
          rw [if_pos hs]
          omega
        rw [hspan, List.range'_succ, List.range'_zero, List.map_cons, List.map_cons, hfirst]
        rfl
      · simp only [List.flatMap_cons, List.flatMap_nil, List.append_nil, pagePart_first,
          min_eq_left (Nat.not_lt.mp hnext)]
        rw [bytes_firstSlice pt mem hs.le (Nat.not_lt.mp hnext) (by omega) hpte]

end Loop

/-- For a range below `2 ^ 38` whose every page has a valid leaf mapping,
`translated_byte_buffer` returns once it is given more passes than `len`: one slice per page of
the range, in address order, each the part of the range in its page, taken from the physical page
that `translate` gives for it. The slices' lengths add up to `len`, and their bytes are the bytes
the range is mapped to. -/
theorem translatedByteBuffer_spec (mem : PhysMem) (token ptr len : Nat)
    (hrange : ptr + len ≤ 2 ^ 38)
    (hmapped : ∀ a, ptr ≤ a → a < ptr + len →
      (PageTable.fromToken token).mapping mem (VirtAddr.ofUsize a).floor ≠ none) :
    ∃ v, (∀ fuel, len < fuel → translatedByteBuffer mem fuel token ptr len = some (.ok v)) ∧
      v.map some = (List.range' (ptr / pageSize) (pagesSpanned ptr (ptr + len))).map
        (pageSlice (PageTable.fromToken token) mem ptr (ptr + len)) ∧
      (v.map ByteSlice.len).sum = len ∧
      (v.flatMap (ByteSlice.bytes mem)).map some =
        (List.range' ptr len).map ((PageTable.fromToken token).translatedByte mem) := by
  have hend : (ptr + len) % 2 ^ 64 = ptr + len := Nat.mod_eq_of_lt (by omega)
  have hrun := fun fuel (h : len < fuel) ↦
    translatedByteBufferLoop_run (PageTable.fromToken token) mem hrange fuel ptr [] (by omega)
      (by omega) fun a h₁ h₂ ht ↦ hmapped a h₁ h₂ (by rw [PageTable.mapping, ht, Option.none_bind])
  obtain ⟨v, -, hslices, hbytes⟩ := hrun (len + 1) (by omega)
  rw [Nat.add_sub_cancel_left] at hbytes
  refine ⟨v, fun fuel h ↦ ?_, hslices, ?_, hbytes⟩
  · obtain ⟨w, hw, hslices', -⟩ := hrun fuel h
    rw [translatedByteBuffer, hend, hw, List.nil_append,
      List.map_injective_iff.mpr (Option.some_injective _) (hslices'.trans hslices.symm)]
  · rw [← ByteSlice.length_flatMap_bytes mem, ← List.length_map _ some, hbytes, List.length_map,
      List.length_range']

/-- A page table at physical page 1, whose leaf table at page 3 maps virtual pages 0 and 1
readable, writable and user-accessible to physical pages 5 and 6, has the empty entry for page 2,
and maps page 3 readable and writable, but not user-accessible, to physical page 7. Across the
boundary of pages 5 and 6 lies "é", the bytes `0xC3 0xA9`. -/
def demoMem : PhysMem :=
  let userFlags := PTEFlags.V ||| PTEFlags.R ||| PTEFlags.W ||| PTEFlags.U
  let mem : PhysMem :=
    ((((PhysMem.setPte (fun _ _ ↦ 0) ⟨1, by decide⟩ 0 (.new ⟨2, by decide⟩ PTEFlags.V)).setPte
      ⟨2, by decide⟩ 0 (.new ⟨3, by decide⟩ PTEFlags.V)).setPte
      ⟨3, by decide⟩ 0 (.new ⟨5, by decide⟩ userFlags)).setPte
      ⟨3, by decide⟩ 1 (.new ⟨6, by decide⟩ userFlags)).setPte
      ⟨3, by decide⟩ 3 (.new ⟨7, by decide⟩ (PTEFlags.V ||| PTEFlags.R ||| PTEFlags.W))
  fun p o ↦ if p = 5 ∧ o = 4095 then 0xC3 else if p = 6 ∧ o = 0 then 0xA9 else mem p o

/-- The page table of `demoMem`. -/
def demoTable : PageTable := ⟨⟨1, by decide⟩, [⟨1, by decide⟩, ⟨2, by decide⟩, ⟨3, by decide⟩]⟩

theorem translatedByteBuffer_spec_demo :
    4095 + 2 ≤ 2 ^ 38 ∧
      (∀ a, 4095 ≤ a → a < 4095 + 2 →
        (PageTable.fromToken demoTable.token).mapping demoMem (VirtAddr.ofUsize a).floor ≠ none) ∧
      ∃ v, (∀ fuel, 2 < fuel → translatedByteBuffer demoMem fuel demoTable.token 4095 2 =
          some (.ok v)) ∧
        v.map some = (List.range' (4095 / pageSize) (pagesSpanned 4095 (4095 + 2))).map
          (pageSlice (PageTable.fromToken demoTable.token) demoMem 4095 (4095 + 2)) ∧
        (v.map ByteSlice.len).sum = 2 ∧
        (v.flatMap (ByteSlice.bytes demoMem)).map some = (List.range' 4095 2).map
          ((PageTable.fromToken demoTable.token).translatedByte demoMem) := by
  have hmapped : ∀ a, 4095 ≤ a → a < 4095 + 2 →
      (PageTable.fromToken demoTable.token).mapping demoMem (VirtAddr.ofUsize a).floor ≠ none := by
    intro a h₁ h₂
    interval_cases a <;> decide
  exact ⟨by decide, hmapped, translatedByteBuffer_spec _ _ _ _ (by decide) hmapped⟩

/-- `translated_byte_buffer` checks neither the `V` nor the `U` bit of the leaf entry that
`translate` returns. Virtual page 2 of `demoTable` has no valid entry, yet its buffer of one
byte is a slice of physical page 0, which the empty entry names; page 3 is mapped without `U`,
yet its buffer is a slice of physical page 7. -/
theorem translatedByteBuffer_unchecked_leaf :
    (PageTable.fromToken demoTable.token).mapping demoMem (VirtAddr.ofUsize 8192).floor = none ∧
      translatedByteBuffer demoMem 2 demoTable.token 8192 1 =
        some (.ok [⟨⟨0, by decide⟩, 0, 1⟩]) ∧
      (PageTable.fromToken demoTable.token).mapping demoMem (VirtAddr.ofUsize 12288).floor =
        some (⟨7, by decide⟩, PTEFlags.V ||| PTEFlags.R ||| PTEFlags.W) ∧
      (PTEFlags.V ||| PTEFlags.R ||| PTEFlags.W) &&& PTEFlags.U = 0 ∧
      translatedByteBuffer demoMem 2 demoTable.token 12288 1 =
        some (.ok [⟨⟨7, by decide⟩, 0, 1⟩]) := by
  refine ⟨?_, ?_, ?_, ?_, ?_⟩ <;> decide

/-! ### `Stdout::write` -/

/-- Modelled from the spec: `UserBuffer` is declared in the absent `mm/mod.rs`; it holds the
slices of a user range. -/
structure UserBuffer where
  buffers : List ByteSlice

/-- Modelled from the spec: `UserBuffer::len`, the lengths of the slices added up. -/
def UserBuffer.len (userBuf : UserBuffer) : Nat := (userBuf.buffers.map ByteSlice.len).sum

/-- `core::str::Utf8Error`: the length of the valid prefix, and the length of the invalid
sequence after it, `None` when the input ends inside a character. -/
structure Utf8Error where
  validUpTo : Nat
  errorLen : Option Nat
  deriving DecidableEq, Repr

/-- `core::str::utf8_char_width`: the length of the character a byte starts, `0` for a byte that
starts none. -/
def utf8CharWidth (b : UInt8) : Nat :=
  if b < 0x80 then 1 else if b < 0xC2 then 0 else if b < 0xE0 then 2
  else if b < 0xF0 then 3 else if b < 0xF5 then 4 else 0

/-- A continuation byte `0b10xx_xxxx`: `run_utf8_validation` rejects the byte after a lead byte
when `next!() as i8 >= -64`. -/
def isContinuation (b : UInt8) : Bool := 0x80 ≤ b && b < 0xC0

/-- The second byte `run_utf8_validation` accepts after the lead byte `first` of a three- or
four-byte character, which excludes overlong forms, surrogates and code points past `U+10FFFF`. -/
def secondByteOk (first second : UInt8) : Bool :=
  if first = 0xE0 then 0xA0 ≤ second && second ≤ 0xBF
  else if first = 0xED then 0x80 ≤ second && second ≤ 0x9F
  else if first = 0xF0 then 0x90 ≤ second && second ≤ 0xBF
  else if first = 0xF4 then 0x80 ≤ second && second ≤ 0x8F
  else isContinuation second

/-- The `error_len` of a character that the end of the input cuts short: the position of the
first byte after the lead byte `first` that is out of range, `None` when there is none. -/
def truncatedErrorLen (first : UInt8) : Nat → List UInt8 → Option Nat
  | _, [] => none
  | i, b :: rest =>
    if (if i = 1 then secondByteOk first b else isContinuation b) then
      truncatedErrorLen first (i + 1) rest
    else some i

/-- `core::str::run_utf8_validation` from byte `index` of the input: `none` when the rest is
UTF-8. Its word-at-a-time pass over ASCII is a shortcut to the same result. -/
def runUtf8Validation : List UInt8 → Nat → Option Utf8Error
  | [], _ => none
  | first :: rest, index =>
    match utf8CharWidth first, rest with
    | 1, rest => runUtf8Validation rest (index + 1)
    | 2, b1 :: rest =>
      if isContinuation b1 then runUtf8Validation rest (index + 2) else some ⟨index, some 1⟩
    | 3, b1 :: b2 :: rest =>
      if !secondByteOk first b1 then some ⟨index, some 1⟩
      else if !isContinuation b2 then some ⟨index, some 2⟩
      else runUtf8Validation rest (index + 3)
    | 4, b1 :: b2 :: b3 :: rest =>
      if !secondByteOk first b1 then some ⟨index, some 1⟩
      else if !isContinuation b2 then some ⟨index, some 2⟩
      else if !isContinuation b3 then some ⟨index, some 3⟩
      else runUtf8Validation rest (index + 4)
    | 0, _ => some ⟨index, some 1⟩
    | _, rest => some ⟨index, truncatedErrorLen first 1 rest⟩

/-- `core::str::from_utf8`: the bytes as a `str`, or the error of the validation. -/
def fromUtf8 (v : List UInt8) : Except Utf8Error (List UInt8) :=
  match runUtf8Validation v 0 with
  | none => .ok v
  | some e => .error e

/-- The panic of `unwrap` on the `Err` of `from_utf8`, with the `Debug` form of the error. -/
def utf8UnwrapMsg (e : Utf8Error) : String :=
  "called `Result::unwrap()` on an `Err` value: Utf8Error \x7b valid_up_to: " ++
    toString e.validUpTo ++ ", error_len: " ++
    (match e.errorLen with
      | none => "None"
      | some n => "Some(" ++ toString n ++ ")") ++ " \x7d"

/-- The `for` loop of `Stdout::write`: the bytes printed, slice after slice, and the panic of the
first slice that is not UTF-8 on its own. -/
def Stdout.printLoop (mem : PhysMem) : List ByteSlice → List UInt8 × Option String
  | [] => ([], none)
  | buffer :: rest =>
    match fromUtf8 (buffer.bytes mem) with
    | .error e => ([], some (utf8UnwrapMsg e))
    | .ok s => (s ++ (printLoop mem rest).1, (printLoop mem rest).2)

/-- `Stdout::write`: the bytes printed on the console, and `user_buf.len()` or the panic. -/
def Stdout.write (mem : PhysMem) (userBuf : UserBuffer) : List UInt8 × Except String Nat :=
  ((Stdout.printLoop mem userBuf.buffers).1,
    match (Stdout.printLoop mem userBuf.buffers).2 with
    | none => .ok userBuf.len
    | some msg => .error msg)

namespace Stdout

variable (mem : PhysMem)

end Stdout

/-- `Stdout::write` checks each slice on its own: the two bytes of "é" at virtual address 4095
of `demoTable` are valid UTF-8 together, and both pages are mapped, but `translated_byte_buffer`
cuts them into the slices `[0xC3]` and `[0xA9]`, and `from_utf8(..).unwrap()` panics on the first
before anything is printed. -/
theorem stdout_write_splits_character :
    (∀ a, 4095 ≤ a → a < 4095 + 2 →
        (PageTable.fromToken demoTable.token).mapping demoMem (VirtAddr.ofUsize a).floor ≠ none) ∧
      translatedByteBuffer demoMem 3 demoTable.token 4095 2 =
        some (.ok [⟨⟨5, by decide⟩, 4095, 4096⟩, ⟨⟨6, by decide⟩, 0, 1⟩]) ∧
      ([⟨⟨5, by decide⟩, 4095, 4096⟩, ⟨⟨6, by decide⟩, 0, 1⟩] : List ByteSlice).flatMap
        (ByteSlice.bytes demoMem) = [0xC3, 0xA9] ∧
      runUtf8Validation [0xC3, 0xA9] 0 = none ∧
      Stdout.write demoMem ⟨[⟨⟨5, by decide⟩, 4095, 4096⟩, ⟨⟨6, by decide⟩, 0, 1⟩]⟩ =
        ([], .error (utf8UnwrapMsg ⟨0, none⟩)) := by
  refine ⟨fun a h₁ h₂ ↦ ?_, ?_, ?_, ?_, ?_⟩
  · interval_cases a <;> decide
  all_goals decide

end Rcore.Os
