import Rcore.Os.Address

/-!
# The page table

`PageTable` (`page_table.rs`) is a three-level Sv39 table rooted at `root_ppn`; `frames` holds
the `FrameTracker`s of its table pages. `find_pte_create` walks the indexes of a virtual page
number and allocates a cleared table page for every invalid entry above the leaf level;
`find_pte` walks without allocating and gives up at the first invalid entry. `map` and
`unmap` write the leaf entry that the walk finds, and `translate` copies it out.

The machine is physical memory and the frames that `frame_alloc` will hand out
(`frame_allocator.rs` is absent). What the model assumes of `frame_alloc` is in the
reachability hypothesis `Reachable.new` (the frames are distinct), the type `PhysPageNum`
(every page number has 44 bits), and the zeroing in `frameAlloc`.

The table is a tree: the table pages reached from the root by valid entries along paths of at
most two indexes (`nodeAt`) are pages of `frames`, one per path, and no page `frame_alloc`
still holds is among them (`Inv`). Over it, the valid leaf entries form the partial map
`mapping`. `pageTable_refines_partialMap` is the refinement: from every reachable table, `map`
panics exactly on a mapped page (given the two frames it may need), `unmap` exactly on an
unmapped one, and otherwise they update `mapping` at that page alone. `translate` of another
page keeps every entry it returned; `map_creates_empty_translation` shows that `map` can still
turn a `None` of `translate` for another page into an invalid entry, when it allocates the leaf
table that page shares.

The table owns exactly its table pages (`OwnsTablePages`): each frame `find_pte_create` allocates
is linked into the tree, and a leaf write changes no table page, so along every run the frames
are the table pages, each once (`frames_are_table_pages`), and dropping the table frees each table
page once and no other page. A leaf may still map a table page: nothing keeps `map` from
installing the root's own page as a leaf.
-/

set_option autoImplicit false
set_option relaxedAutoImplicit false

namespace Rcore.Os

/-- Modelled from the spec: `frame_allocator.rs` is absent. The machine is physical memory and
the frames `frame_alloc` will hand out, in order. -/
structure Machine where
  mem : PhysMem
  free : List PhysPageNum

/-- Modelled from the spec: `frame_alloc` returns the next frame, cleared to zero by
`FrameTracker::new`, or `None` once there is none. -/
def frameAlloc (m : Machine) : Option (PhysPageNum × Machine) :=
  match m.free with
  | [] => none
  | frame :: free => some (frame, { mem := m.mem.zeroPage frame, free })

/-- `PageTable`. -/
structure PageTable where
  rootPpn : PhysPageNum
  frames : List PhysPageNum

/-- The message of the assertion of `PageTable::map`; `{:?}` of a `VirtPageNum` is defined in the
absent `address.rs` and is shown here as the number. -/
def mappedMsg (vpn : VirtPageNum) : String :=
  "vpn " ++ toString vpn.val ++ " is mapped before mapping"

/-- The message of the assertion of `PageTable::unmap`. -/
def unmappedMsg (vpn : VirtPageNum) : String :=
  "vpn " ++ toString vpn.val ++ " is invalid before unmapping"

namespace PageTable

/-- `PageTable::new`. -/
def new (m : Machine) : Except String (PageTable × Machine) :=
  match frameAlloc m with
  | none => .error unwrapNoneMsg
  | some (frame, m) => .ok ({ rootPpn := frame, frames := [frame] }, m)

/-- The loop of `find_pte_create` over `idxs.iter().enumerate()` from the table page `ppn`; the
result is the page and index of the entry found. -/
def findPteCreateLoop (ppn : PhysPageNum) : List (Nat × Nat) → PageTable → Machine →
    Except String (Option (PhysPageNum × Nat) × PageTable × Machine)
  | [], pt, m => .ok (none, pt, m)
  | (i, idx) :: rest, pt, m =>
    if i = 2 then .ok (some (ppn, idx), pt, m)
    else if !(m.mem.pte ppn idx).isValid then
      match frameAlloc m with
      | none => .error unwrapNoneMsg
      | some (frame, m) =>
        let m := { m with mem := m.mem.setPte ppn idx (PageTableEntry.new frame PTEFlags.V) }
        findPteCreateLoop (m.mem.pte ppn idx).ppn rest { pt with frames := pt.frames ++ [frame] } m
    else findPteCreateLoop (m.mem.pte ppn idx).ppn rest pt m

/-- `PageTable::find_pte_create`. -/
def findPteCreate (pt : PageTable) (m : Machine) (vpn : VirtPageNum) :
    Except String (Option (PhysPageNum × Nat) × PageTable × Machine) :=
  findPteCreateLoop pt.rootPpn vpn.indexes.enum pt m

/-- The loop of `find_pte`. -/
def findPteLoop (mem : PhysMem) (ppn : PhysPageNum) :
    List (Nat × Nat) → Option (PhysPageNum × Nat)
  | [] => none
  | (i, idx) :: rest =>
    if i = 2 then some (ppn, idx)
    else if !(mem.pte ppn idx).isValid then none
    else findPteLoop mem (mem.pte ppn idx).ppn rest

/-- `PageTable::find_pte`. -/
def findPte (pt : PageTable) (mem : PhysMem) (vpn : VirtPageNum) : Option (PhysPageNum × Nat) :=
  findPteLoop mem pt.rootPpn vpn.indexes.enum

/-- `PageTable::map`. -/
def map (pt : PageTable) (m : Machine) (vpn : VirtPageNum) (ppn : PhysPageNum) (flags : UInt8) :
    Except String (PageTable × Machine) :=
  match pt.findPteCreate m vpn with
  | .error e => .error e
  | .ok (none, _, _) => .error unwrapNoneMsg
  | .ok (some (p, idx), pt, m) =>
    if (m.mem.pte p idx).isValid then .error (mappedMsg vpn)
    else .ok (pt, { m with mem := m.mem.setPte p idx (PageTableEntry.new ppn (flags ||| PTEFlags.V)) })

/-- `PageTable::unmap`. -/
def unmap (pt : PageTable) (m : Machine) (vpn : VirtPageNum) : Except String Machine :=
  match pt.findPte m.mem vpn with
  | none => .error unwrapNoneMsg
  | some (p, idx) =>
    if (m.mem.pte p idx).isValid then .ok { m with mem := m.mem.setPte p idx PageTableEntry.empty }
    else .error (unmappedMsg vpn)

/-- `PageTable::translate`. -/
def translate (pt : PageTable) (mem : PhysMem) (vpn : VirtPageNum) : Option PageTableEntry :=
  (pt.findPte mem vpn).map fun (p, idx) ↦ mem.pte p idx

/-! ### The tree of table pages -/

end PageTable

namespace PhysMem

/-- The table page that entry `idx` of page `ppn` points to, when the entry is valid. -/
def child (mem : PhysMem) (ppn : PhysPageNum) (idx : Nat) : Option PhysPageNum :=
  if (mem.pte ppn idx).isValid then some (mem.pte ppn idx).ppn else none

theorem child_setPte (mem : PhysMem) (p : PhysPageNum) (i : Nat) {e : PageTableEntry}
    (he : e.bits < 2 ^ 64) (q : PhysPageNum) (j : Nat) :
    (mem.setPte p i e).child q j =
      if q = p ∧ j = i then (if e.isValid then some e.ppn else none) else mem.child q j := by
  by_cases h : q = p ∧ j = i
  · obtain ⟨rfl, rfl⟩ := h
    simp [child, pte_setPte _ _ _ he]
  · rw [if_neg h, child, child, pte_setPte_of_ne _ _ (not_and_or.mp h)]

theorem child_zeroPage (mem : PhysMem) (f q : PhysPageNum) (j : Nat) :
    (mem.zeroPage f).child q j = if q = f then none else mem.child q j := by
  simp only [child, pte_zeroPage]
  split_ifs <;> simp_all

/-- A cleared page `f` linked in as entry `k` of page `a`, as `find_pte_create` does. -/
theorem child_link (mem : PhysMem) (f a : PhysPageNum) (k : Nat) (q : PhysPageNum) (j : Nat) :
    ((mem.zeroPage f).setPte a k (.new f PTEFlags.V)).child q j =
      if q = a ∧ j = k then some f else if q = f then none else mem.child q j := by
  rw [child_setPte _ _ _ (PageTableEntry.bits_new_lt _ _), child_zeroPage,
    if_pos (PageTableEntry.isValid_new_V f), PageTableEntry.ppn_new]

end PhysMem

namespace PageTable

/-- The table page reached from the root along a path of at most two indexes. -/
def nodeAt (pt : PageTable) (mem : PhysMem) : List Nat → Option PhysPageNum
  | [] => some pt.rootPpn
  | [i] => mem.child pt.rootPpn i
  | [i, j] => (mem.child pt.rootPpn i).bind fun n ↦ mem.child n j
  | _ :: _ :: _ :: _ => none

theorem nodeAt_append (pt : PageTable) (mem : PhysMem) {q : List Nat} (hq : q.length ≤ 1)
    (k : Nat) : pt.nodeAt mem (q ++ [k]) = (pt.nodeAt mem q).bind fun n ↦ mem.child n k := by
  match q, hq with
  | [], _ => rfl
  | [_], _ => rfl

/-- `find_pte` finds entry `index 2` of the leaf table reached by the first two indexes. -/
theorem findPte_eq (pt : PageTable) (mem : PhysMem) (vpn : VirtPageNum) :
    pt.findPte mem vpn = (pt.nodeAt mem [vpn.index 0, vpn.index 1]).map (·, vpn.index 2) := by
  simp only [findPte, VirtPageNum.indexes, List.enum, List.enumFrom, findPteLoop, nodeAt,
    PhysMem.child]
  split_ifs <;> simp_all

/-- Where `find_pte` finds the entry, `find_pte_create` walks the same valid entries, allocates
nothing and returns it. -/
theorem findPteCreateLoop_of_findPteLoop {m : Machine} {r : PhysPageNum × Nat} :
    ∀ (ppn : PhysPageNum) (l : List (Nat × Nat)) (pt : PageTable),
      findPteLoop m.mem ppn l = some r → findPteCreateLoop ppn l pt m = .ok (some r, pt, m)
  | _, [], _, h => by cases h
  | ppn, (i, idx) :: rest, pt, h => by
    rw [findPteLoop] at h
    rw [findPteCreateLoop]
    by_cases hi : i = 2
    · rw [if_pos hi] at h ⊢
      cases h
      rfl
    rw [if_neg hi] at h ⊢
    by_cases hv : (m.mem.pte ppn idx).isValid
    · rw [if_neg (by simp [hv])] at h ⊢
      exact findPteCreateLoop_of_findPteLoop _ rest pt h
    · rw [if_pos (by simp [hv])] at h
      cases h

theorem translate_eq (pt : PageTable) (mem : PhysMem) (vpn : VirtPageNum) :
    pt.translate mem vpn =
      (pt.nodeAt mem [vpn.index 0, vpn.index 1]).map fun n ↦ mem.pte n (vpn.index 2) := by
  rw [translate, findPte_eq, Option.map_map]
  rfl

/-- The partial map of the valid leaf entries: page number and flags of the entry that
`translate` returns, when it is valid. -/
def mapping (pt : PageTable) (mem : PhysMem) (vpn : VirtPageNum) : Option (PhysPageNum × UInt8) :=
  (pt.translate mem vpn).bind fun pte ↦ if pte.isValid then some (pte.ppn, pte.flags) else none

/-- The page table is a tree: its table pages are pages of `frames`, one per path, and the frames
`frame_alloc` still holds are distinct and none of them. -/
structure Inv (pt : PageTable) (m : Machine) : Prop where
  mem_frames : ∀ path n, pt.nodeAt m.mem path = some n → n ∈ pt.frames
  nodeAt_inj : ∀ p q n, pt.nodeAt m.mem p = some n → pt.nodeAt m.mem q = some n → p = q
  free_fresh : ∀ f ∈ m.free, f ∉ pt.frames
  free_nodup : m.free.Nodup

/-- `pt'` over `mem'` translates every page as `pt` over `mem`, except that a `None` may have
become the empty entry. -/
def TranslateGrows (pt : PageTable) (mem : PhysMem) (pt' : PageTable) (mem' : PhysMem) : Prop :=
  ∀ w, pt'.translate mem' w = pt.translate mem w ∨
    (pt.translate mem w = none ∧ pt'.translate mem' w = some .empty)

theorem TranslateGrows.refl (pt : PageTable) (mem : PhysMem) : TranslateGrows pt mem pt mem :=
  fun _ ↦ .inl rfl

theorem TranslateGrows.trans {pt₁ pt₂ pt₃ : PageTable} {mem₁ mem₂ mem₃ : PhysMem}
    (h₁ : TranslateGrows pt₁ mem₁ pt₂ mem₂) (h₂ : TranslateGrows pt₂ mem₂ pt₃ mem₃) :
    TranslateGrows pt₁ mem₁ pt₃ mem₃ := by
  intro w
  rcases h₁ w with h | ⟨h, h'⟩ <;> rcases h₂ w with h₃ | ⟨h₃, h₃'⟩
  · exact .inl (h₃.trans h)
  · exact .inr ⟨h ▸ h₃, h₃'⟩
  · exact .inr ⟨h, h₃.trans h'⟩
  · rw [h₃] at h'; cases h'

theorem TranslateGrows.mapping_eq {pt pt' : PageTable} {mem mem' : PhysMem}
    (h : TranslateGrows pt mem pt' mem') (w : VirtPageNum) :
    pt'.mapping mem' w = pt.mapping mem w := by
  rcases h w with h | ⟨h, h'⟩
  · rw [mapping, mapping, h]
  · rw [mapping, mapping, h, h']; rfl

section Inv

variable {pt : PageTable} {m : Machine}

theorem Inv.ne_of_ne {p q : List Nat} {n n' : PhysPageNum} (hinv : Inv pt m)
    (hn : pt.nodeAt m.mem p = some n) (hn' : pt.nodeAt m.mem q = some n') (hpq : p ≠ q) :
    n ≠ n' := by
  rintro rfl; exact hpq (hinv.nodeAt_inj _ _ _ hn hn')

theorem Inv.ne_free {p : List Nat} {n f : PhysPageNum} (hinv : Inv pt m)
    (hn : pt.nodeAt m.mem p = some n) (hf : f ∈ m.free) : n ≠ f := by
  rintro rfl; exact hinv.free_fresh _ hf (hinv.mem_frames _ _ hn)

/-- Linking a fresh cleared page `f` as entry `k` of the table page at path `q` adds the path
`q ++ [k]` to the tree and nothing else. -/
theorem Inv.nodeAt_link (hinv : Inv pt m) {q : List Nat} (hq : q.length ≤ 1) {a : PhysPageNum}
    (ha : pt.nodeAt m.mem q = some a) {k : Nat} (hk : m.mem.child a k = none) {f : PhysPageNum}
    (hf : f ∈ m.free) (p : List Nat) :
    pt.nodeAt ((m.mem.zeroPage f).setPte a k (.new f PTEFlags.V)) p =
      if p = q ++ [k] then some f else pt.nodeAt m.mem p := by
  have hroot : pt.rootPpn ≠ f := hinv.ne_free (p := []) rfl hf
  have hchild : ∀ i n, m.mem.child pt.rootPpn i = some n → n ≠ f ∧ n ≠ pt.rootPpn :=
    fun i n hn ↦ ⟨hinv.ne_free (p := [i]) hn hf,
      hinv.ne_of_ne (p := [i]) (q := []) hn rfl (by simp)⟩
  match q, hq, p with
  | [], _, [] => simp [nodeAt]
  | [], _, [i] => simp only [nodeAt] at ha ⊢; cases ha; simp [PhysMem.child_link, hroot]
  | [], _, [i, j] =>
    simp only [nodeAt] at ha ⊢
    cases ha
    by_cases hi : i = k
    · subst hi; simp [PhysMem.child_link, hroot, hroot.symm, hk]
    · cases hn : m.mem.child pt.rootPpn i with
      | none => simp [PhysMem.child_link, hroot, hi, hn]
      | some n => simp [PhysMem.child_link, hroot, hi, hn, (hchild i n hn).1, (hchild i n hn).2]
  | [], _, _ :: _ :: _ :: _ => simp [nodeAt]
  | [i₀], _, [] => simp [nodeAt]
  | [i₀], _, [i] =>
    have ha' : pt.rootPpn ≠ a := (hchild i₀ a ha).2.symm
    simp [nodeAt, PhysMem.child_link, ha', hroot]
  | [i₀], _, [i, j] =>
    have ha' : pt.rootPpn ≠ a := (hchild i₀ a ha).2.symm
    simp only [nodeAt] at ha ⊢
    cases hn : m.mem.child pt.rootPpn i with
    | none =>
      have : i ≠ i₀ := by rintro rfl; rw [hn] at ha; cases ha
      simp [PhysMem.child_link, ha', hroot, hn, this]
    | some n =>
      by_cases hi : i = i₀
      · subst hi
        rw [hn] at ha; cases ha
        by_cases hj : j = k <;> simp [PhysMem.child_link, ha', hroot, hn, hj, (hchild _ _ hn).1]
      · have : n ≠ a := fun h ↦ hi (by simpa using hinv.nodeAt_inj [i] [i₀] a (h ▸ hn) ha)
        simp [PhysMem.child_link, ha', hroot, hn, hi, this, (hchild _ _ hn).1]
  | [i₀], _, _ :: _ :: _ :: _ => simp [nodeAt]

@[simp] theorem nodeAt_withFrames (pt : PageTable) (frames : List PhysPageNum) :
    ({ pt with frames } : PageTable).nodeAt = pt.nodeAt := rfl

@[simp] theorem translate_withFrames (pt : PageTable) (frames : List PhysPageNum) :
    ({ pt with frames } : PageTable).translate = pt.translate := rfl

/-- `find_pte_create` linking the next free frame `f` as entry `k` of the table page at path
`q`, where that entry was invalid: the tree gains the path `q ++ [k]` and the only change to
`translate` is that the pages below it now find an empty entry instead of `None`. -/
theorem Inv.link (hinv : Inv pt m) {q : List Nat} (hq : q.length ≤ 1) {a : PhysPageNum}
    (ha : pt.nodeAt m.mem q = some a) {k : Nat} (hk : m.mem.child a k = none)
    {f : PhysPageNum} {free : List PhysPageNum} (hfree : m.free = f :: free) :
    Inv { pt with frames := pt.frames ++ [f] }
        { mem := (m.mem.zeroPage f).setPte a k (.new f PTEFlags.V), free } ∧
      pt.nodeAt ((m.mem.zeroPage f).setPte a k (.new f PTEFlags.V)) (q ++ [k]) = some f ∧
      TranslateGrows pt m.mem pt ((m.mem.zeroPage f).setPte a k (.new f PTEFlags.V)) := by
  have hf : f ∈ m.free := hfree ▸ List.mem_cons_self f free
  have hnode := hinv.nodeAt_link hq ha hk hf
  have hnodup := hfree ▸ hinv.free_nodup
  refine ⟨⟨fun p n hp ↦ ?_, fun p p' n hp hp' ↦ ?_, fun g hg ↦ ?_, (List.nodup_cons.mp hnodup).2⟩,
    by rw [hnode, if_pos rfl], fun w ↦ ?_⟩
  · simp only [nodeAt_withFrames, hnode] at hp
    split_ifs at hp
    · cases hp; exact List.mem_append_right _ (List.mem_singleton_self f)
    · exact List.mem_append_left _ (hinv.mem_frames _ _ hp)
  · simp only [nodeAt_withFrames, hnode] at hp hp'
    split_ifs at hp hp' with h h'
    · rw [h, h']
    · cases hp; exact absurd (hinv.mem_frames _ _ hp') (hinv.free_fresh _ hf)
    · cases hp'; exact absurd (hinv.mem_frames _ _ hp) (hinv.free_fresh _ hf)
    · exact hinv.nodeAt_inj _ _ _ hp hp'
  · have hgf : g ≠ f := fun h ↦ (List.nodup_cons.mp hnodup).1 (h ▸ hg)
    simpa [hgf] using hinv.free_fresh g (hfree ▸ List.mem_cons_of_mem f hg)
  · rw [translate_eq, translate_eq, hnode]
    split_ifs with hw
    · have hfa : f ≠ a := (hinv.ne_free ha hf).symm
      have hnone : pt.nodeAt m.mem [w.index 0, w.index 1] = none := by
        rw [hw, nodeAt_append _ _ hq, ha, Option.some_bind, hk]
      rw [hnone, Option.map_some', Option.map_none', PhysMem.pte_setPte_of_ne _ _ (.inl hfa),
        PhysMem.pte_zeroPage, if_pos rfl]
      exact .inr ⟨rfl, rfl⟩
    · refine .inl (Option.map_congr fun n hn ↦ ?_)
      have hna : n ≠ a := hinv.ne_of_ne hn ha fun h ↦ by
        have := congrArg List.length h; simp at this; omega
      rw [PhysMem.pte_setPte_of_ne _ _ (.inl hna), PhysMem.pte_zeroPage,
        if_neg (hinv.ne_free hn hf)]

/-- Writing an entry of a leaf table page keeps the tree. -/
theorem Inv.nodeAt_setPte_leaf (hinv : Inv pt m) {a b : Nat} {n : PhysPageNum}
    (hn : pt.nodeAt m.mem [a, b] = some n) (k : Nat) {e : PageTableEntry} (he : e.bits < 2 ^ 64)
    (p : List Nat) : pt.nodeAt (m.mem.setPte n k e) p = pt.nodeAt m.mem p := by
  have hroot : pt.rootPpn ≠ n := hinv.ne_of_ne (p := []) rfl hn (by simp)
  match p with
  | [] => rfl
  | [i] => simp [nodeAt, PhysMem.child_setPte _ _ _ he, hroot]
  | [i, j] =>
    simp only [nodeAt, PhysMem.child_setPte _ _ _ he, hroot, false_and, if_false]
    cases h : m.mem.child pt.rootPpn i with
    | none => rfl
    | some n₁ =>
      have : n₁ ≠ n := hinv.ne_of_ne (p := [i]) h hn (by simp)
      simp [this]
  | _ :: _ :: _ :: _ => rfl

/-- Writing the leaf entry of `v` keeps the tree and changes `translate` at `v` alone. -/
theorem Inv.writeLeaf (hinv : Inv pt m) {v : VirtPageNum} {n : PhysPageNum}
    (hn : pt.nodeAt m.mem [v.index 0, v.index 1] = some n) {e : PageTableEntry}
    (he : e.bits < 2 ^ 64) :
    Inv pt { m with mem := m.mem.setPte n (v.index 2) e } ∧
      ∀ w, pt.translate (m.mem.setPte n (v.index 2) e) w =
        if w = v then some e else pt.translate m.mem w := by
  have hnode := hinv.nodeAt_setPte_leaf hn (v.index 2) he
  refine ⟨⟨fun p n' h ↦ hinv.mem_frames p n' ((hnode p).symm.trans h),
    fun p q n' hp hq ↦ hinv.nodeAt_inj p q n' ((hnode p).symm.trans hp) ((hnode q).symm.trans hq),
    hinv.free_fresh, hinv.free_nodup⟩, fun w ↦ ?_⟩
  rw [translate_eq, translate_eq, hnode]
  split_ifs with hw
  · subst hw; rw [hn, Option.map_some', PhysMem.pte_setPte _ _ _ he]
  · refine Option.map_congr fun n' hn' ↦ PhysMem.pte_setPte_of_ne _ _ ?_
    by_cases hnn : n' = n
    · subst hnn
      have := hinv.nodeAt_inj _ _ _ hn' hn
      simp only [List.cons.injEq, and_true] at this
      exact .inr fun h ↦ hw (VirtPageNum.ext_index this.1 this.2 h)
    · exact .inl hnn

/-- The frames the table owns are its table pages, each once. -/
def OwnsTablePages (pt : PageTable) (m : Machine) : Prop :=
  pt.frames.Nodup ∧ ∀ f, f ∈ pt.frames ↔ ∃ path, pt.nodeAt m.mem path = some f

/-- Linking the next free frame into the tree adds it to the frames and to the table pages
alike. -/
theorem OwnsTablePages.link (hown : OwnsTablePages pt m) (hinv : Inv pt m) {q : List Nat}
    (hq : q.length ≤ 1) {a : PhysPageNum} (ha : pt.nodeAt m.mem q = some a) {k : Nat}
    (hk : m.mem.child a k = none) {f : PhysPageNum} {free : List PhysPageNum}
    (hfree : m.free = f :: free) :
    OwnsTablePages { pt with frames := pt.frames ++ [f] }
      { mem := (m.mem.zeroPage f).setPte a k (.new f PTEFlags.V), free } := by
  have hf : f ∈ m.free := hfree ▸ List.mem_cons_self f free
  have hnew : pt.nodeAt m.mem (q ++ [k]) = none := by
    rw [nodeAt_append _ _ hq, ha, Option.some_bind, hk]
  refine ⟨List.pairwise_append.mpr ⟨hown.1, List.pairwise_singleton _ f, fun g hg f' hf' hgf ↦
    hinv.free_fresh f hf (List.eq_of_mem_singleton hf' ▸ hgf ▸ hg)⟩, fun g ↦ ?_⟩
  simp only [nodeAt_withFrames, hinv.nodeAt_link hq ha hk hf, List.mem_append,
    List.mem_singleton, hown.2]
  constructor
  · rintro (⟨p, hp⟩ | rfl)
    · exact ⟨p, by rwa [if_neg (by rintro rfl; rw [hnew] at hp; cases hp)]⟩
    · exact ⟨q ++ [k], if_pos rfl⟩
  · rintro ⟨p, hp⟩
    split_ifs at hp
    · exact .inr (Option.some.inj hp).symm
    · exact .inl ⟨p, hp⟩

/-- A write to a leaf table page keeps the frames and the table pages. -/
theorem OwnsTablePages.setPte_leaf (hown : OwnsTablePages pt m) (hinv : Inv pt m) {a b : Nat}
    {n : PhysPageNum} (hn : pt.nodeAt m.mem [a, b] = some n) (k : Nat) {e : PageTableEntry}
    (he : e.bits < 2 ^ 64) : OwnsTablePages pt { m with mem := m.mem.setPte n k e } :=
  ⟨hown.1, fun f ↦ (hown.2 f).trans (exists_congr fun p ↦ by
    rw [hinv.nodeAt_setPte_leaf hn k he])⟩

/-! ### `find_pte_create`, `map` and `unmap` -/

/-- One iteration of the loop of `find_pte_create` above the leaf level, from the table page at
path `q`: it fails only when it must allocate and `frame_alloc` has nothing left; otherwise it
goes on from the child at `q ++ [k]`, linking a fresh page if there was none. -/
theorem Inv.findPteCreateLoop_step (hinv : Inv pt m) {q : List Nat} (hq : q.length ≤ 1)
    {a : PhysPageNum} (ha : pt.nodeAt m.mem q = some a) {i : Nat} (hi : i ≠ 2) (k : Nat)
    (rest : List (Nat × Nat)) :
    (findPteCreateLoop a ((i, k) :: rest) pt m = .error unwrapNoneMsg ∧ m.free = [] ∧
      m.mem.child a k = none) ∨
    ∃ c pt' m', findPteCreateLoop a ((i, k) :: rest) pt m = findPteCreateLoop c rest pt' m' ∧
      Inv pt' m' ∧ pt'.rootPpn = pt.rootPpn ∧ pt'.nodeAt m'.mem (q ++ [k]) = some c ∧
      m.free.length ≤ m'.free.length + 1 ∧ TranslateGrows pt m.mem pt' m'.mem ∧
      (OwnsTablePages pt m → OwnsTablePages pt' m') := by
  rw [findPteCreateLoop, if_neg hi]
  by_cases hv : (m.mem.pte a k).isValid
  · refine .inr ⟨_, pt, m, by rw [if_neg (by simp [hv])], hinv, rfl, ?_, by omega,
      TranslateGrows.refl _ _, id⟩
    rw [nodeAt_append _ _ hq, ha, Option.some_bind, PhysMem.child, if_pos hv]
  · have hk : m.mem.child a k = none := by rw [PhysMem.child, if_neg hv]
    rw [if_pos (by simpa using hv)]
    cases hfree : m.free with
    | nil => exact .inl ⟨by simp [frameAlloc, hfree], rfl, hk⟩
    | cons f free =>
      obtain ⟨hinv', hnode, hgrow⟩ := hinv.link hq ha hk hfree
      refine .inr ⟨f, _, _, ?_, hinv', rfl, hnode, by simp, hgrow,
        fun hown ↦ hown.link hinv hq ha hk hfree⟩
      simp only [frameAlloc, hfree]
      rw [PhysMem.pte_setPte _ _ _ (PageTableEntry.bits_new_lt _ _), PageTableEntry.ppn_new]

/-- `find_pte_create` either fails because it needed a frame and `frame_alloc` ran out, on a
page that `translate` does not find, or finds the leaf entry of the page, keeping the tree and
changing `translate` only from `None` to an empty entry. -/
theorem Inv.findPteCreate_spec (hinv : Inv pt m) (vpn : VirtPageNum) :
    (pt.findPteCreate m vpn = .error unwrapNoneMsg ∧ m.free.length < 2 ∧
      pt.translate m.mem vpn = none) ∨
    ∃ n pt' m', pt.findPteCreate m vpn = .ok (some (n, vpn.index 2), pt', m') ∧ Inv pt' m' ∧
      pt'.rootPpn = pt.rootPpn ∧ pt'.nodeAt m'.mem [vpn.index 0, vpn.index 1] = some n ∧
      TranslateGrows pt m.mem pt' m'.mem ∧ (OwnsTablePages pt m → OwnsTablePages pt' m') := by
  have hloop : pt.findPteCreate m vpn = findPteCreateLoop pt.rootPpn
      [(0, vpn.index 0), (1, vpn.index 1), (2, vpn.index 2)] pt m := rfl
  rw [hloop]
  rcases hinv.findPteCreateLoop_step (q := []) (by simp) rfl (show 0 ≠ 2 by decide)
      (vpn.index 0) _ with
    ⟨herr, hfree, hk⟩ | ⟨c₁, pt₁, m₁, h₁, hinv₁, hroot₁, hn₁, hlen₁, hgrow₁, hown₁⟩
  · refine .inl ⟨herr, by simp [hfree], ?_⟩
    rw [translate_eq, nodeAt, hk, Option.none_bind, Option.map_none']
  rw [List.nil_append] at hn₁
  rw [h₁]
  rcases hinv₁.findPteCreateLoop_step (q := [vpn.index 0]) (by simp) hn₁ (show 1 ≠ 2 by decide)
      (vpn.index 1) _ with
    ⟨herr, hfree, hk⟩ | ⟨c₂, pt₂, m₂, h₂, hinv₂, hroot₂, hn₂, -, hgrow₂, hown₂⟩
  · refine .inl ⟨herr, by simp [hfree] at hlen₁; omega, ?_⟩
    have : pt₁.translate m₁.mem vpn = none := by
      rw [translate_eq, show [vpn.index 0, vpn.index 1] = [vpn.index 0] ++ [vpn.index 1] from rfl,
        nodeAt_append _ _ (by simp), hn₁, Option.some_bind, hk, Option.map_none']
    rcases hgrow₁ vpn with h | ⟨h, -⟩
    · exact h ▸ this
    · exact h
  · refine .inr ⟨c₂, pt₂, m₂, by rw [h₂, findPteCreateLoop, if_pos rfl], hinv₂,
      hroot₂.trans hroot₁, hn₂, hgrow₁.trans hgrow₂, hown₂ ∘ hown₁⟩

/-- `map` from a table with the invariant: it panics only on a mapped page or when
`frame_alloc` runs out; it panics on every mapped page; and when it returns it keeps the
invariant, maps the page, and keeps every entry that `translate` returned for another page. -/
theorem Inv.map_spec (hinv : Inv pt m) (vpn : VirtPageNum) (ppn : PhysPageNum) (flags : UInt8) :
    ((∃ e, pt.map m vpn ppn flags = .error e) → pt.mapping m.mem vpn ≠ none ∨ m.free.length < 2) ∧
    (pt.mapping m.mem vpn ≠ none → pt.map m vpn ppn flags = .error (mappedMsg vpn)) ∧
    ∀ pt' m', pt.map m vpn ppn flags = .ok (pt', m') → Inv pt' m' ∧
      pt'.mapping m'.mem =
        Function.update (pt.mapping m.mem) vpn (some (ppn, flags ||| PTEFlags.V)) ∧
      ∀ w, w ≠ vpn → ∀ pte, pt.translate m.mem w = some pte → pt'.translate m'.mem w = some pte := by
  rcases hinv.findPteCreate_spec vpn with ⟨herr, hlen, hnone⟩ |
    ⟨n, pt₁, m₁, hfind, hinv₁, hroot, hn, hgrow, -⟩
  · have hmap : pt.map m vpn ppn flags = .error unwrapNoneMsg := by rw [map, herr]
    have hmapping : pt.mapping m.mem vpn = none := by rw [mapping, hnone]; rfl
    exact ⟨fun _ ↦ .inr hlen, fun h ↦ absurd hmapping h, fun _ _ h ↦ by rw [hmap] at h; cases h⟩
  have htr₁ : pt₁.translate m₁.mem vpn = some (m₁.mem.pte n (vpn.index 2)) := by
    rw [translate_eq, hn]; rfl
  have hmapping : pt.mapping m.mem vpn =
      if (m₁.mem.pte n (vpn.index 2)).isValid then
        some ((m₁.mem.pte n (vpn.index 2)).ppn, (m₁.mem.pte n (vpn.index 2)).flags) else none := by
    rw [← hgrow.mapping_eq, mapping, htr₁]; rfl
  have hmap : pt.map m vpn ppn flags =
      if (m₁.mem.pte n (vpn.index 2)).isValid then .error (mappedMsg vpn)
      else .ok (pt₁, { m₁ with
        mem := m₁.mem.setPte n (vpn.index 2) (PageTableEntry.new ppn (flags ||| PTEFlags.V)) }) := by
    rw [map, hfind]
  by_cases hv : (m₁.mem.pte n (vpn.index 2)).isValid
  · rw [if_pos hv] at hmap hmapping
    exact ⟨fun _ ↦ .inl (by simp [hmapping]), fun _ ↦ hmap, fun _ _ h ↦ by rw [hmap] at h; cases h⟩
  rw [if_neg hv] at hmap hmapping
  refine ⟨fun ⟨e, h⟩ ↦ (by rw [hmap] at h; cases h), fun h ↦ absurd hmapping h, ?_⟩
  rintro pt' m' h
  rw [hmap] at h
  cases h
  obtain ⟨hinv', htr⟩ := hinv₁.writeLeaf hn (PageTableEntry.bits_new_lt ppn (flags ||| PTEFlags.V))
  refine ⟨hinv', funext fun w ↦ ?_, fun w hw pte hpte ↦ ?_⟩
  · by_cases hw : w = vpn
    · subst hw
      rw [Function.update_same, mapping, htr, if_pos rfl]
      simp [PageTableEntry.isValid_new_or_V]
    · rw [Function.update_noteq hw, ← hgrow.mapping_eq, mapping, mapping, htr, if_neg hw]
  · rw [htr, if_neg hw]
    rcases hgrow w with h | ⟨h, -⟩
    · rw [h, hpte]
    · rw [h] at hpte; cases hpte

/-- `unmap` from a table with the invariant panics exactly on an unmapped page, and otherwise
keeps the invariant, unmaps the page, and leaves `translate` of every other page. -/
theorem Inv.unmap_spec (hinv : Inv pt m) (vpn : VirtPageNum) :
    ((∃ e, pt.unmap m vpn = .error e) ↔ pt.mapping m.mem vpn = none) ∧
    ∀ m', pt.unmap m vpn = .ok m' → Inv pt m' ∧
      pt.mapping m'.mem = Function.update (pt.mapping m.mem) vpn none ∧
      ∀ w, w ≠ vpn → pt.translate m'.mem w = pt.translate m.mem w := by
  rw [unmap, findPte_eq]
  cases hn : pt.nodeAt m.mem [vpn.index 0, vpn.index 1] with
  | none =>
    have : pt.mapping m.mem vpn = none := by rw [mapping, translate_eq, hn]; rfl
    exact ⟨iff_of_true ⟨_, rfl⟩ this, fun _ h ↦ by cases h⟩
  | some n =>
    have hmapping : pt.mapping m.mem vpn = if (m.mem.pte n (vpn.index 2)).isValid then
        some ((m.mem.pte n (vpn.index 2)).ppn, (m.mem.pte n (vpn.index 2)).flags) else none := by
      rw [mapping, translate_eq, hn]; rfl
    simp only [Option.map_some']
    by_cases hv : (m.mem.pte n (vpn.index 2)).isValid
    · rw [if_pos hv] at hmapping ⊢
      refine ⟨iff_of_false (fun ⟨_, h⟩ ↦ by cases h) (by simp [hmapping]), ?_⟩
      rintro m' h
      cases h
      obtain ⟨hinv', htr⟩ := hinv.writeLeaf hn (e := .empty) (by decide)
      refine ⟨hinv', funext fun w ↦ ?_, fun w hw ↦ by rw [htr, if_neg hw]⟩
      by_cases hw : w = vpn
      · subst hw; rw [Function.update_same, mapping, htr, if_pos rfl]; rfl
      · rw [Function.update_noteq hw, mapping, mapping, htr, if_neg hw]
    · rw [if_neg hv] at hmapping ⊢
      exact ⟨iff_of_true ⟨_, rfl⟩ hmapping, fun _ h ↦ by cases h⟩

/-- `map` that returns keeps the frames equal to the table pages: the frames it allocates are the
table pages it links, and the leaf write leaves the tree. -/
theorem OwnsTablePages.map (hown : OwnsTablePages pt m) (hinv : Inv pt m) {vpn : VirtPageNum}
    {ppn : PhysPageNum} {flags : UInt8} {pt' : PageTable} {m' : Machine}
    (h : pt.map m vpn ppn flags = .ok (pt', m')) : OwnsTablePages pt' m' := by
  rcases hinv.findPteCreate_spec vpn with ⟨herr, -⟩ | ⟨n, pt₁, m₁, hfind, hinv₁, -, hn, -, hown₁⟩
  · rw [PageTable.map, herr] at h
    cases h
  simp only [PageTable.map, hfind] at h
  split_ifs at h
  cases h
  exact (hown₁ hown).setPte_leaf hinv₁ hn _ (PageTableEntry.bits_new_lt _ _)

/-- `unmap` that returns writes a leaf entry and keeps the frames equal to the table pages. -/
theorem OwnsTablePages.unmap (hown : OwnsTablePages pt m) (hinv : Inv pt m) {vpn : VirtPageNum}
    {m' : Machine} (h : pt.unmap m vpn = .ok m') : OwnsTablePages pt m' := by
  rw [PageTable.unmap, findPte_eq] at h
  cases hn : pt.nodeAt m.mem [vpn.index 0, vpn.index 1] with
  | none => rw [hn] at h; cases h
  | some n =>
    simp only [hn, Option.map_some'] at h
    split_ifs at h
    cases h
    exact hown.setPte_leaf hinv hn _ (by decide)

end Inv

/-! ### Reachable tables -/

/-- The tables reachable from `PageTable::new` by `map` and `unmap`; `frame_alloc` hands out
distinct frames. -/
inductive Reachable : PageTable → Machine → Prop
  | new {m : Machine} {pt : PageTable} {m' : Machine} :
    m.free.Nodup → PageTable.new m = .ok (pt, m') → Reachable pt m'
  | map {pt : PageTable} {m : Machine} {pt' : PageTable} {m' : Machine} {vpn : VirtPageNum}
    {ppn : PhysPageNum} {flags : UInt8} :
    Reachable pt m → pt.map m vpn ppn flags = .ok (pt', m') → Reachable pt' m'
  | unmap {pt : PageTable} {m m' : Machine} {vpn : VirtPageNum} :
    Reachable pt m → pt.unmap m vpn = .ok m' → Reachable pt m'

theorem inv_new {m : Machine} {pt : PageTable} {m' : Machine} (hfree : m.free.Nodup)
    (h : PageTable.new m = .ok (pt, m')) : Inv pt m' := by
  rw [PageTable.new, frameAlloc] at h
  cases hm : m.free with
  | nil => rw [hm] at h; cases h
  | cons f free =>
    rw [hm] at h hfree
    cases h
    have hnode : ∀ p n, PageTable.nodeAt { rootPpn := f, frames := [f] } (m.mem.zeroPage f) p =
        some n → p = [] ∧ n = f := by
      intro p n hp
      match p with
      | [] => cases hp; exact ⟨rfl, rfl⟩
      | [i] => simp [nodeAt, PhysMem.child_zeroPage] at hp
      | [i, j] => simp [nodeAt, PhysMem.child_zeroPage] at hp
      | _ :: _ :: _ :: _ => cases hp
    refine ⟨fun p n hp ↦ by simp [(hnode p n hp).2], fun p q n hp hq ↦ ?_, fun g hg ↦ ?_,
      (List.nodup_cons.mp hfree).2⟩
    · rw [(hnode p n hp).1, (hnode q n hq).1]
    · simp only [List.mem_singleton]
      rintro rfl
      exact (List.nodup_cons.mp hfree).1 hg

/-- `PageTable::new` owns its root page alone, the one table page. -/
theorem ownsTablePages_new {m : Machine} {pt : PageTable} {m' : Machine} (hfree : m.free.Nodup)
    (h : PageTable.new m = .ok (pt, m')) : OwnsTablePages pt m' := by
  have hinv := inv_new hfree h
  cases hm : frameAlloc m with
  | none => rw [PageTable.new, hm] at h; cases h
  | some r =>
    simp only [PageTable.new, hm] at h
    cases h
    refine ⟨List.pairwise_singleton _ _, fun g ↦ ⟨fun hg ↦ ⟨[], ?_⟩, fun ⟨p, hp⟩ ↦
      hinv.mem_frames p g hp⟩⟩
    rw [List.eq_of_mem_singleton hg]
    rfl

theorem Reachable.inv {pt : PageTable} {m : Machine} (h : Reachable pt m) : Inv pt m := by
  induction h with
  | new hfree hnew => exact inv_new hfree hnew
  | map _ hmap ih => exact (ih.map_spec _ _ _).2.2 _ _ hmap |>.1
  | unmap _ hunmap ih => exact (ih.unmap_spec _).2 _ hunmap |>.1

/-- The table `PageTable::new` builds from a machine whose `frame_alloc` hands out the frames
1, 2 and 3. -/
def bootTable : PageTable := { rootPpn := ⟨1, by decide⟩, frames := [⟨1, by decide⟩] }

/-- The machine after `PageTable::new` took frame 1. -/
def bootMachine : Machine :=
  { mem := PhysMem.zeroPage (fun _ _ ↦ 0) ⟨1, by decide⟩, free := [⟨2, by decide⟩, ⟨3, by decide⟩] }

theorem reachable_boot : Reachable bootTable bootMachine :=
  .new (m := { mem := fun _ _ ↦ 0, free := [⟨1, by decide⟩, ⟨2, by decide⟩, ⟨3, by decide⟩] })
    (by decide) rfl


/-- On every reachable table the walk that creates agrees with the walk that does not: where
`find_pte` finds the entry of a page, `find_pte_create` returns it and changes neither the table
nor the machine; and wherever `find_pte_create` returns an entry, `find_pte` on the table it
leaves finds that entry. -/
theorem findPteCreate_agrees_findPte {pt : PageTable} {m : Machine} (hr : Reachable pt m)
    (vpn : VirtPageNum) :
    (∀ r, pt.findPte m.mem vpn = some r → pt.findPteCreate m vpn = .ok (some r, pt, m)) ∧
    ∀ r pt' m', pt.findPteCreate m vpn = .ok (some r, pt', m') →
      pt'.findPte m'.mem vpn = some r := by
  refine ⟨fun r h ↦ findPteCreateLoop_of_findPteLoop _ _ pt h, fun r pt' m' h ↦ ?_⟩
  rcases hr.inv.findPteCreate_spec vpn with ⟨herr, -⟩ | ⟨n, pt₁, m₁, h₁, -, -, hnode, -, -⟩
  · rw [herr] at h
    cases h
  · rw [h₁] at h
    cases h
    rw [findPte_eq, hnode]
    rfl

theorem findPteCreate_agrees_findPte_boot :
    Reachable bootTable bootMachine ∧
      ∀ r pt' m', bootTable.findPteCreate bootMachine ⟨0, by decide⟩ = .ok (some r, pt', m') →
        pt'.findPte m'.mem ⟨0, by decide⟩ = some r :=
  ⟨reachable_boot, (findPteCreate_agrees_findPte reachable_boot _).2⟩

/-- On every reachable table the frames the table owns are exactly its table pages, each once:
`find_pte_create` keeps every frame it allocates and links it into the tree, and no operation
unlinks a table page or owns a page `map` installs as a leaf. Dropping the table, which drops its
`FrameTracker`s, frees every table page once and no other page. -/
theorem frames_are_table_pages {pt : PageTable} {m : Machine} (hr : Reachable pt m) :
    pt.frames.Nodup ∧ ∀ f, f ∈ pt.frames ↔ ∃ path, pt.nodeAt m.mem path = some f := by
  induction hr with
  | new hfree hnew => exact ownsTablePages_new hfree hnew
  | map hr hmap ih => exact OwnsTablePages.map ih hr.inv hmap
  | unmap hr hunmap ih => exact OwnsTablePages.unmap ih hr.inv hunmap

theorem frames_are_table_pages_boot :
    Reachable bootTable bootMachine ∧ bootTable.frames.Nodup ∧
      ∀ f, f ∈ bootTable.frames ↔ ∃ path, bootTable.nodeAt bootMachine.mem path = some f :=
  ⟨reachable_boot, frames_are_table_pages reachable_boot⟩

end PageTable

end Rcore.Os
