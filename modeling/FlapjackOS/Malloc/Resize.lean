import FlapjackOS.Malloc.Allocate
import FlapjackOS.Malloc.Release

/-! The five ways `realloc` can end for a live pointer and a nonzero size. -/

namespace FlapjackOS.Malloc

open Machine Tiling CString

variable {arch : Arch} {memory middle : Memory} {zone limit ptr base bytes payload newSize : Nat}
  {before block : Block} {front rest blocks : List Block}

/-- `ptr` was given up for a payload of at least `bytes` bytes at `result`. -/
structure Resized (arch : Arch) (zone limit : Nat) (memory changed : Memory) (blocks : List Block)
    (ptr bytes result : Nat) : Prop where
  positive : 0 < result
  fresh : ∀ extent, Allocated arch zone blocks result extent → result = ptr
  served : ∃ new granted, bytes ≤ granted ∧
    Served arch zone limit memory changed blocks new ptr (some (result, granted))

/-- Shrinking a block in use gives its tail back to the zone. -/
theorem Represents.shrink_kept (held : Represents arch memory zone limit (front ++ block :: rest))
    (used : block.inuse = true) (room : bytes ≤ block.size) (multiple : bytes % 4 = 0)
    (base_eq : base = headerAfter arch zone front) :
    ∃ changed new granted, considerSplittingBlock arch memory base bytes = some changed ∧
      bytes ≤ granted ∧
      Served arch zone limit memory changed (front ++ block :: rest) new (base + sizeofBlock arch)
        (some (base + sizeofBlock arch, granted)) ∧
      ∀ i, i < bytes → changed (base + sizeofBlock arch + i) = memory (base + sizeofBlock arch + i) := by
  subst base_eq
  have width := sizeofBlock_aligned arch
  have own := held.header_aligned
  obtain ⟨changed, split, chain, same⟩ :=
    considerSplittingBlock_chain held.suffix room (by omega) held.suffix_fits.le
  have served := held.refit held.coalesced.of_front held.coalesced.of_rest.tail room multiple used rfl chain
    fun x kept _ => same x kept
  refine ⟨changed, _, _, split, (splitSize_bounds room).1, served, fun i inside => same _ ?_⟩
  exact ⟨.inr (.inl ⟨by omega, by omega⟩), clearOf_below (by omega)⟩

/-- Extending a block in use over the free block behind it. -/
theorem Represents.extend (held : Represents arch memory zone limit (front ++ block :: following :: rest))
    (used : block.inuse = true) (idle : following.inuse = false) (base_eq : base = headerAfter arch zone front)
    (extended_eq : extended = absorb arch memory base (base + sizeofBlock arch + block.size)
      (next arch memory (base + sizeofBlock arch + block.size))) :
    Served arch zone limit memory extended (front ++ block :: following :: rest)
      (front ++ ⟨block.size + (following.size + sizeofBlock arch), block.inuse⟩ :: rest)
      (base + sizeofBlock arch)
      (some (base + sizeofBlock arch, block.size + (following.size + sizeofBlock arch))) ∧
    ∀ i, i < block.size → extended (base + sizeofBlock arch + i) = memory (base + sizeofBlock arch + i) := by
  have wide := sizeofBlock_pos arch
  obtain ⟨layout, same⟩ := held.absorb base_eq
  rw [← extended_eq] at layout same
  have place : base + sizeofBlock arch + (block.size + (following.size + sizeofBlock arch)) =
      base + sizeofBlock arch + block.size + sizeofBlock arch + following.size := by omega
  refine ⟨⟨⟨layout, ?_⟩, fun payload extent => ?_, fun payload extent other different x low high => ?_⟩,
    fun i inside => same _ (.inr (by omega)) (clearOf_below (by omega))⟩
  · have behind : Coalesced rest := held.coalesced.of_rest.tail.tail
    exact (@coalesced_used ⟨block.size + (following.size + sizeofBlock arch), block.inuse⟩ front rest
      used).mpr ⟨held.coalesced.of_front, behind⟩
  · refine @rebound_of_members _ _ front _ (base + sizeofBlock arch + (block.size + (following.size +
      sizeofBlock arch))) _ _ _ _ rest _ (by omega) (Nat.le_add_right _ _) ?_ (fun other => ?_)
    · simp only [allocated_append, InUse, used, true_and, Option.some.injEq, Prod.mk.injEq, ← base_eq]
      simp only [eq_comm]
    · simp only [allocated_append, InUse, other, idle, ← base_eq, false_and, and_false, false_or,
        Bool.false_eq_true, place]
  · obtain ⟨_, headers⟩ := clearOf_append.mp (other.clearOf low high)
    obtain ⟨own, later⟩ := clearOf_cons.mp headers
    rw [← headerAfter, ← base_eq] at own later
    exact same x own (clearOf_cons.mp later).2

/-- The new payload keeps what it held: `memcpy` writes into the old one. -/
theorem Represents.relocate (held : Represents arch memory zone limit blocks)
    (used : Allocated arch zone blocks ptr bytes)
    (granted : Granted arch zone limit memory middle blocks request payload) :
    ∃ changed, Malloc.free arch (memcpy arch middle ptr payload (size arch middle (ptr - sizeofBlock arch)))
        zone ptr = some changed ∧
      Resized arch zone limit memory changed blocks ptr request payload ∧
      ∀ i, i < request → changed (payload + i) = middle (payload + i) := by
  obtain ⟨positive, fresh, mid, extent, enough, served⟩ := granted
  have different : ptr ≠ payload := fun same => fresh bytes (same ▸ used)
  have still := (served.rebound ptr bytes).mpr (.inr ⟨different, used⟩)
  have handed := (served.rebound payload extent).mpr (.inl rfl)
  have bounds := held.payload_bounds used
  have bounded := held.bounded
  rw [served.represents.payload_size still]
  have outside (x : Nat) (apart : x < ptr ∨ ptr + bytes ≤ x) :
      memcpy arch middle ptr payload bytes x = middle x := memcpy_outside (by omega) apart
  have copied : Represents arch (memcpy arch middle ptr payload bytes) zone limit mid :=
    ⟨served.represents.write still outside, served.represents.coalesced⟩
  obtain ⟨changed, new, returned, released⟩ := copied.free still
  -- any other payload in use is clear of both the copy and the release
  have kept (other size : Nat) (inUse : Allocated arch zone mid other size) (apart : other ≠ ptr)
      (x : Nat) (low : other ≤ x) (high : x < other + size) : changed x = middle x := by
    rw [released.kept other size inUse apart x low high]
    refine outside x ?_
    rcases inUse_disjoint inUse still apart with before | behind
    · exact .inl (by omega)
    · exact .inr (by omega)
  refine ⟨changed, returned, ⟨positive, fun size inUse => (fresh size inUse).elim, new, extent, enough,
    released.represents, fun other size => ?_, fun other size inUse apart x low high => ?_⟩,
    fun i inside => kept payload extent handed different.symm _ (by omega) (by omega)⟩
  · rw [released.rebound, served.rebound]
    constructor
    · rintro (never | ⟨apart, given | ⟨_, inUse⟩⟩)
      · simp at never
      · exact .inl given
      · exact .inr ⟨apart, inUse⟩
    · rintro (given | ⟨apart, inUse⟩)
      · simp only [Option.some.injEq, Prod.mk.injEq] at given
        exact .inr ⟨fun same => different (same.symm.trans given.1.symm), .inl (by simp [given])⟩
      · exact .inr ⟨apart, .inr ⟨fun same => fresh size (same ▸ inUse), inUse⟩⟩
  · have separate : other ≠ payload := fun same => fresh size (same ▸ inUse)
    rw [kept other size ((served.rebound other size).mpr (.inr ⟨separate, inUse⟩)) apart x low high]
    exact served.kept other size inUse separate x low high

/-- The links are set in another order than by `free`, with the same outcome. -/
theorem merge_edits (behind : base + sizeofBlock arch ≤ removed)
    (after : following = 0 ∨ removed + sizeofBlock arch ≤ following)
    (followingFits : following < arch.modulus)
    (sum : size arch memory base + (size arch memory removed + sizeofBlock arch) < arch.modulus)
    (linked_eq : linked = setNext arch memory base following)
    (relinked_eq : relinked = if following ≠ 0 then setPrev arch linked following base else linked) :
    setSize arch relinked base
        (arch.add (arch.add (size arch relinked removed) (size arch relinked base)) (sizeofBlock arch)) =
      absorb arch memory base removed following := by
  have words := arch.wordBytes_cases
  have width : sizeofBlock arch = 4 * arch.wordBytes := rfl
  have ownSize : size arch relinked base = size arch memory base := by
    rw [relinked_eq, linked_eq]
    split
    · rw [size_eq, header_setPrev_other (by omega), header_setNext followingFits, size_eq]
    · rw [size_eq, header_setNext followingFits, size_eq]
  have otherSize : size arch relinked removed = size arch memory removed := by
    rw [relinked_eq, linked_eq]
    split
    · rw [size_eq, header_setPrev_other (by omega), header_setNext_other (by omega), size_eq]
    · rw [size_eq, header_setNext_other (by omega), size_eq]
  have total : arch.add (arch.add (size arch memory removed) (size arch memory base))
      (sizeofBlock arch) =
      arch.add (size arch memory base) (arch.add (size arch memory removed) (sizeofBlock arch)) := by
    have inner : size arch memory removed + sizeofBlock arch < arch.modulus := by omega
    rw [Arch.add_add_of_lt (by omega), Arch.add_of_lt inner, Arch.add_of_lt sum]
    omega
  rw [ownSize, otherSize, total, absorb, relinked_eq, linked_eq]
  generalize arch.add (size arch memory base) _ = value
  have fields : setSize arch (setNext arch memory base following) base value =
      setNext arch (setSize arch memory base value) base following := store_comm (by omega)
  rw [← fields]
  split
  · exact store_comm (by omega)
  · rfl

theorem next_behind (chain : Chain arch memory start 0 base (block :: rest)) :
    next arch memory base = 0 ∨ base + sizeofBlock arch ≤ next arch memory base := by
  rw [chain.next]
  unfold follow
  split
  · exact .inl rfl
  · exact .inr (Nat.le_add_right _ _)

section
variable (held : Represents arch memory zone limit (front ++ before :: block :: rest))
include held

/-- The block in front takes over the block and is marked in use. -/
theorem Represents.merge_links
    (base_eq : base = headerAfter arch zone front)
    (removed_eq : removed = base + sizeofBlock arch + before.size)
    (linked_eq : linked = setInuse arch (absorb arch memory base removed (next arch memory removed)) base true) :
    Layout arch linked zone limit
      (front ++ ⟨before.size + (block.size + sizeofBlock arch), true⟩ :: rest) ∧
    (∀ x, base + sizeofBlock arch ≤ x →
      x < base + sizeofBlock arch + (before.size + (block.size + sizeofBlock arch)) →
      linked x = memory x) ∧
    ∀ x, ClearOf arch (firstBlock arch zone) (front ++ before :: block :: rest) x →
      linked x = memory x := by
  obtain ⟨absorbed, same⟩ := held.absorb base_eq
  have marked := @Layout.setInuse _ _ _ _ _ _ _ true absorbed
  rw [← base_eq, ← removed_eq, ← linked_eq] at marked
  rw [← removed_eq] at same
  refine ⟨marked, fun x low high => ?_, fun x headers => ?_⟩
  · rw [linked_eq, setInuse_outside (.inr low)]
    exact same x (.inr low) (clearOf_below (by omega))
  · have suffix := (clearOf_append.mp headers).2
    rw [← headerAfter, ← base_eq] at suffix
    obtain ⟨own, later⟩ := clearOf_cons.mp suffix
    rw [← removed_eq] at later
    rw [linked_eq, setInuse_outside own]
    exact same x own (clearOf_cons.mp later).2

/-- The move stays inside the combined payload. -/
theorem Represents.merge_shift (idle : before.inuse = false) (flag : block.inuse = true)
    (base_eq : base = headerAfter arch zone front)
    (ptr_eq : ptr = base + sizeofBlock arch + before.size + sizeofBlock arch)
    (layout : Layout arch linked zone limit (front ++ ⟨before.size + (block.size + sizeofBlock arch), true⟩ :: rest))
    (clear : ∀ x, ClearOf arch (firstBlock arch zone) (front ++ before :: block :: rest) x → linked x = memory x)
    (outside : ∀ x, x < ptr ∨ ptr + block.size ≤ x → shifted x = linked x) :
    Served arch zone limit memory shifted (front ++ before :: block :: rest)
      (front ++ ⟨before.size + (block.size + sizeofBlock arch), true⟩ :: rest) ptr
      (some (base + sizeofBlock arch, before.size + (block.size + sizeofBlock arch))) where
  represents := by
    have combined : Allocated arch zone
        (front ++ ⟨before.size + (block.size + sizeofBlock arch), true⟩ :: rest)
        (base + sizeofBlock arch) (before.size + (block.size + sizeofBlock arch)) := by
      simp [Allocated, inUse_append, InUse, ← base_eq]
    refine ⟨layout.write combined (fun x apart => outside x (by omega)), ?_⟩
    exact (coalesced_used rfl).mpr ⟨held.coalesced.of_front, held.coalesced.of_rest.tail.tail⟩
  rebound := by
    intro payload extent
    refine @rebound_of_members _ _ front _ (base + sizeofBlock arch +
      (before.size + (block.size + sizeofBlock arch))) _ _ _ _ rest _ (by omega) (by omega) ?_
      (fun other => ?_)
    · simp only [Allocated, inUse_append, InUse, true_and, Option.some.injEq, Prod.mk.injEq, ← base_eq]
      simp only [eq_comm]
    · simp only [Allocated, inUse_append, InUse, idle, ← base_eq, ← ptr_eq, other, false_and, and_false,
        false_or, Bool.false_eq_true]
      rw [show base + sizeofBlock arch + (before.size + (block.size + sizeofBlock arch)) =
        ptr + block.size by omega]
  kept := by
    intro payload extent used other x low high
    have own : Allocated arch zone (front ++ before :: block :: rest) ptr block.size := by
      simp [Allocated, inUse_append, InUse, flag, ← base_eq, ← ptr_eq]
    rw [outside x ?_, clear x (used.clearOf low high)]
    rcases inUse_disjoint used own other with early | late
    · exact .inl (by omega)
    · exact .inr (by omega)

/-- `memmove` leaves these bytes at the start of the combined block. It moves
them towards the old payload and not towards the new one. -/
theorem Represents.merge (idle : before.inuse = false) (flag : block.inuse = true)
    (multiple : bytes % 4 = 0) (room : bytes ≤ block.size + before.size + sizeofBlock arch)
    (base_eq : base = headerAfter arch zone front)
    (removed_eq : removed = base + sizeofBlock arch + before.size)
    (ptr_eq : ptr = removed + sizeofBlock arch) :
    ∃ changed, mergeIntoPreceding arch memory ptr removed base (next arch memory removed) bytes =
          some (changed, base + sizeofBlock arch) ∧
      Resized arch zone limit memory changed (front ++ before :: block :: rest) ptr bytes
        (base + sizeofBlock arch) ∧
      ∀ i, i < bytes → changed (base + sizeofBlock arch + i) =
        moved memory ptr (base + sizeofBlock arch) block.size (base + sizeofBlock arch + i) := by
  have wide := sizeofBlock_pos arch
  have inside := held.suffix_fits
  have chain := held.suffix
  simp only [span] at inside
  rw [← base_eq] at inside chain
  have tail : Chain arch memory base 0 removed (block :: rest) := removed_eq ▸ chain.2
  have edits := @merge_edits arch memory base removed (next arch memory removed) _ _ (by omega)
    (next_behind tail) load_lt (by rw [chain.size, tail.size]; omega) rfl rfl
  obtain ⟨layout, untouched, clear⟩ := held.merge_links base_eq removed_eq rfl
  generalize linked_eq : setInuse arch (absorb arch memory base removed (next arch memory removed)) base
    true = linked at layout untouched clear
  have copied : size arch linked removed = block.size := by
    rw [size_eq, header_congr (fun x low high => untouched x (by omega) (by omega)), ← size_eq, tail.size]
  obtain ⟨shifted, returned, contents⟩ := @memmove_contents arch linked ptr (base + sizeofBlock arch)
    block.size (by omega) (by omega)
  have outside (x : Nat) (apart : x < ptr ∨ ptr + block.size ≤ x) : shifted x = linked x := by
    rw [contents, moved, if_neg (by omega)]
  have first := held.merge_shift idle flag base_eq (by omega) layout clear outside
  obtain ⟨changed, new, granted, split, enough, second, kept⟩ := first.represents.shrink_kept rfl
    (show bytes ≤ before.size + (block.size + sizeofBlock arch) by omega) multiple base_eq
  have fresh (extent : Nat) : ¬ Allocated arch zone (front ++ before :: block :: rest)
      (base + sizeofBlock arch) extent := base_eq ▸ allocated_fresh idle
  refine ⟨changed, ?_, ⟨by omega, fun extent used => (fresh extent used).elim, new, granted, enough,
    first.trans second (fun extent used => (fresh extent used).elim)⟩, fun i low => ?_⟩
  · have place : arch.add base (sizeofBlock arch) = base + sizeofBlock arch := Arch.add_of_lt (by omega)
    simp only [mergeIntoPreceding, edits, linked_eq, place, copied, returned, split, Option.bind_eq_bind,
      Option.bind_some]
    rfl
  · rw [kept i low, contents]
    unfold moved
    split
    · exact untouched _ (by omega) (by omega)
    · exact untouched _ (by omega) (by omega)

end

section
variable (arch : Arch) (memory : Memory) (zone limit : Nat) (blocks : List Block) (ptr bytes newSize : Nat)

/-- The block has room for the new size, alone or with the free block behind it. -/
def HasRoom (block : Nat) : Prop :=
  newSize ≤ size arch memory block ∨
    (next arch memory block ≠ 0 ∧ inuse arch memory (next arch memory block) = false ∧
      newSize ≤ arch.add (arch.add (size arch memory block)
        (size arch memory (next arch memory block))) (sizeofBlock arch))

/-- The block has room for the new size together with the free block in front. -/
def JoinsPreceding (block : Nat) : Prop :=
  prev arch memory block ≠ 0 ∧ inuse arch memory (prev arch memory block) = false ∧
    newSize ≤ arch.add (arch.add (size arch memory block)
      (size arch memory (prev arch memory block))) (sizeofBlock arch)

/-- How a call of `realloc` on the payload of `bytes` bytes at `ptr` can end. -/
inductive Reallocated : Memory → Nat → Prop where
  | inPlace (room : HasRoom arch memory newSize (ptr - sizeofBlock arch))
      (resized : Resized arch zone limit memory changed blocks ptr newSize ptr)
      (same : ∀ i, i < bytes → i < newSize → changed (ptr + i) = memory (ptr + i)) :
      Reallocated changed ptr
  | relocated (crowded : ¬ HasRoom arch memory newSize (ptr - sizeofBlock arch))
      (found : findBestFit arch memory zone newSize = some best) (present : best ≠ 0)
      (resized : Resized arch zone limit memory changed blocks ptr newSize (best + sizeofBlock arch))
      (same : ∀ i, i < newSize →
        changed (best + sizeofBlock arch + i) = memory (best + sizeofBlock arch + i)) :
      Reallocated changed (best + sizeofBlock arch)
  | merged (crowded : ¬ HasRoom arch memory newSize (ptr - sizeofBlock arch))
      (nothing : findBestFit arch memory zone newSize = some 0)
      (joins : JoinsPreceding arch memory newSize (ptr - sizeofBlock arch))
      (payload : q = prev arch memory (ptr - sizeofBlock arch) + sizeofBlock arch) (below : q < ptr)
      (resized : Resized arch zone limit memory changed blocks ptr newSize q)
      (same : ∀ i, i < newSize → changed (q + i) = moved memory ptr q bytes (q + i)) :
      Reallocated changed q
  | refused (crowded : ¬ HasRoom arch memory newSize (ptr - sizeofBlock arch))
      (nothing : findBestFit arch memory zone newSize = some 0)
      (stuck : ¬ JoinsPreceding arch memory newSize (ptr - sizeofBlock arch)) :
      Reallocated memory 0

end

/-- Behind its assertions `realloc` handles the payload at `ptr`. -/
def Resizes (arch : Arch) (memory : Memory) (zone limit : Nat) (blocks : List Block)
    (ptr bytes newSize : Nat) : Prop :=
  ∃ changed result, resizeBlock arch memory zone ptr (ptr - sizeofBlock arch) newSize =
      some (changed, result) ∧
    Reallocated arch memory zone limit blocks ptr bytes newSize changed result

theorem Represents.resize_shrink (held : Represents arch memory zone limit (front ++ block :: rest))
    (flag : block.inuse = true) (multiple : newSize % 4 = 0) (base_eq : base = headerAfter arch zone front)
    (room : newSize ≤ block.size) :
    Resizes arch memory zone limit (front ++ block :: rest) (base + sizeofBlock arch) block.size newSize := by
  have extent : size arch memory base = block.size := by rw [base_eq, held.suffix.size]
  have positive := held.header_pos
  obtain ⟨changed, new, granted, split, enough, served, same⟩ :=
    held.shrink_kept flag room multiple base_eq
  refine ⟨changed, base + sizeofBlock arch, ?_, .inPlace ?_ ⟨by omega, fun _ _ => rfl, new, granted, enough,
    served⟩ (fun i _ inside => same i inside)⟩
  · simp [resizeBlock, extent, room, split]
  · rw [Nat.add_sub_cancel]
    exact .inl (extent ▸ room)

theorem Represents.resize_extend
    (held : Represents arch memory zone limit (front ++ block :: following :: rest))
    (flag : block.inuse = true) (idle : following.inuse = false) (multiple : newSize % 4 = 0)
    (base_eq : base = headerAfter arch zone front) (short : ¬ newSize ≤ block.size)
    (room : newSize ≤ block.size + following.size + sizeofBlock arch) :
    Resizes arch memory zone limit (front ++ block :: following :: rest) (base + sizeofBlock arch)
      block.size newSize := by
  have chain := held.suffix
  have inside := held.suffix_fits
  have positive := held.header_pos
  rw [← base_eq] at chain inside positive
  simp only [span] at inside
  have link : next arch memory base = base + sizeofBlock arch + block.size := by
    rw [chain.next, follow, if_neg (List.cons_ne_nil _ _)]
  have sum : arch.add (arch.add block.size following.size) (sizeofBlock arch) =
      block.size + following.size + sizeofBlock arch := Arch.add_add_of_lt (by omega)
  obtain ⟨extended, sameExtended⟩ := held.extend flag idle base_eq rfl
  obtain ⟨changed, new, granted, split, enough, served, same⟩ := extended.represents.shrink_kept flag
    (show newSize ≤ block.size + (following.size + sizeofBlock arch) by omega) multiple base_eq
  have available : next arch memory base ≠ 0 ∧ inuse arch memory (next arch memory base) = false ∧
      newSize ≤ arch.add (arch.add (size arch memory base) (size arch memory (next arch memory base)))
        (sizeofBlock arch) := by
    rw [link, Chain.inuse chain.2, Chain.size chain.2, chain.size, sum]
    exact ⟨by omega, idle, room⟩
  refine ⟨changed, base + sizeofBlock arch, ?_, .inPlace ?_ ⟨by omega, fun _ _ => rfl, new, granted, enough,
    extended.trans served (fun _ _ => rfl)⟩ (fun i old inside => ?_)⟩
  · rw [← link] at split
    have tooSmall : ¬ newSize ≤ size arch memory base := by rwa [chain.size]
    simp only [Nat.add_sub_cancel, resizeBlock, if_neg tooSmall, if_pos available, split,
      Option.bind_eq_bind, Option.bind_some]
    rfl
  · rw [Nat.add_sub_cancel]
    exact .inr available
  · rw [same i inside, sameExtended i old]

theorem Represents.resize_merge (held : Represents arch memory zone limit (front ++ block :: rest))
    (flag : block.inuse = true) (multiple : newSize % 4 = 0) (base_eq : base = headerAfter arch zone front)
    (joins : JoinsPreceding arch memory newSize base) :
    ∃ changed q, mergeIntoPreceding arch memory (base + sizeofBlock arch) base (prev arch memory base)
        (next arch memory base) newSize = some (changed, q) ∧
      q = prev arch memory base + sizeofBlock arch ∧ q < base + sizeofBlock arch ∧
      Resized arch zone limit memory changed (front ++ block :: rest) (base + sizeofBlock arch) newSize q ∧
      ∀ i, i < newSize →
        changed (q + i) = moved memory (base + sizeofBlock arch) q block.size (q + i) := by
  have chain := held.suffix
  have inside := held.suffix_fits
  have wide := sizeofBlock_pos arch
  rw [← base_eq] at chain
  simp only [span] at inside
  have preceding := chain.prev
  obtain ⟨present, idle, room⟩ := joins
  rcases List.eq_nil_or_concat front with empty | ⟨init, before, shape⟩
  · -- the first block has no predecessor
    subst empty
    exact (present preceding).elim
  · rw [List.concat_eq_append] at shape
    subst shape
    rw [lastHeader_append] at preceding
    have shape : (init ++ [before]) ++ block :: rest = init ++ before :: block :: rest := by simp
    rw [shape] at held ⊢
    have front := held.suffix
    rw [headerAfter_concat] at inside base_eq
    rw [preceding, front.inuse] at idle
    rw [preceding, chain.size, front.size, Arch.add_add_of_lt (by omega)] at room
    obtain ⟨changed, returned, resized, same⟩ := held.merge idle flag multiple room rfl base_eq rfl
    rw [preceding]
    exact ⟨changed, _, returned, rfl, by omega, resized, same⟩

section
variable (held : Represents arch memory zone limit blocks)
  (used : Allocated arch zone blocks ptr bytes)
include held used

theorem Represents.resize_elsewhere (fits : newSize < arch.modulus) (multiple : newSize % 4 = 0)
    (crowded : ¬ HasRoom arch memory newSize (ptr - sizeofBlock arch)) :
    Resizes arch memory zone limit blocks ptr bytes newSize := by
  obtain ⟨best, search, outcome⟩ := held.malloc fits
  rw [roundUpBlockSize_multiple fits multiple] at search outcome
  obtain ⟨tooSmall, noRoom⟩ := not_or.mp crowded
  rcases outcome with ⟨nothing, returned⟩ | ⟨middle, returned, present, granted, same⟩
  · subst nothing
    by_cases joins : JoinsPreceding arch memory newSize (ptr - sizeofBlock arch)
    · obtain ⟨front, block, rest, shape, flag, place, size⟩ := used.focus
      subst shape size
      have base_eq : ptr - sizeofBlock arch = headerAfter arch zone front := by omega
      obtain ⟨changed, q, merged, payload, below, resized, kept⟩ :=
        held.resize_merge flag multiple base_eq joins
      have back : ptr - sizeofBlock arch + sizeofBlock arch = ptr := by omega
      rw [back] at merged below resized kept
      refine ⟨changed, q, ?_, .merged crowded search joins payload below resized kept⟩
      unfold JoinsPreceding at joins
      simp only [resizeBlock, if_neg tooSmall, if_neg noRoom, returned, Option.bind_eq_bind,
        Option.bind_some]
      rw [if_neg (by simp), if_pos joins]
      exact merged
    · refine ⟨memory, 0, ?_, .refused crowded search joins⟩
      unfold JoinsPreceding at joins
      simp only [resizeBlock, if_neg tooSmall, if_neg noRoom, returned, Option.bind_eq_bind,
        Option.bind_some]
      rw [if_neg (by simp), if_neg joins]
      rfl
  · obtain ⟨changed, released, resized, kept⟩ := held.relocate used granted
    refine ⟨changed, best + sizeofBlock arch, ?_, .relocated crowded search present resized ?_⟩
    · simp only [resizeBlock, if_neg tooSmall, if_neg noRoom, returned, Option.bind_eq_bind,
        Option.bind_some]
      rw [if_pos (by omega), released]
      rfl
    · intro i inside
      rw [kept i inside, same _ (by omega) (by omega)]

/-- Every way through `realloc` behind its assertions. -/
theorem Represents.resize (fits : newSize < arch.modulus) (multiple : newSize % 4 = 0) :
    Resizes arch memory zone limit blocks ptr bytes newSize := by
  by_cases room : HasRoom arch memory newSize (ptr - sizeofBlock arch)
  · obtain ⟨front, block, rest, shape, flag, place, size⟩ := used.focus
    subst shape size
    have base_eq : ptr - sizeofBlock arch = headerAfter arch zone front := by omega
    have chain := held.suffix
    rw [← base_eq] at chain
    have back : ptr - sizeofBlock arch + sizeofBlock arch = ptr := by omega
    by_cases enough : newSize ≤ block.size
    · have done := held.resize_shrink flag multiple base_eq enough
      rwa [back] at done
    · obtain small | ⟨present, idle, total⟩ := room
      · rw [chain.size] at small
        exact (enough small).elim
      · rw [chain.next] at present idle total
        cases rest with
        | nil => exact (present rfl).elim
        | cons following rest =>
          have inside := held.suffix_fits
          simp only [span] at inside
          rw [follow, if_neg (List.cons_ne_nil _ _)] at idle total
          rw [Chain.inuse chain.2] at idle
          rw [chain.size, Chain.size chain.2, Arch.add_add_of_lt (by omega)] at total
          have done := held.resize_extend flag idle multiple base_eq enough total
          rwa [back] at done
  · exact held.resize_elsewhere used fits multiple room

/-- `realloc` passes its assertions for every pointer in use. -/
theorem Represents.realloc_found :
    Malloc.realloc arch memory zone ptr newSize =
      if newSize = 0 then (Malloc.free arch memory zone ptr).bind (Malloc.malloc arch · zone 0)
      else resizeBlock arch memory zone ptr (ptr - sizeofBlock arch) (roundUpBlockSize arch newSize) := by
  have found := held.foundBlock used
  have wide := sizeofBlock_pos arch
  have bounds := held.payload_bounds used
  have bounded := held.bounded
  have back : arch.sub ptr (sizeofBlock arch) = ptr - sizeofBlock arch :=
    Arch.sub_of_le (by omega) (by omega)
  have flag := held.payload_inuse used
  unfold Malloc.realloc
  rw [if_neg (by omega)]
  simp only [back, found, flag, Option.bind_eq_bind, Option.bind_some, Bool.true_eq_false, or_self,
    if_false]

theorem Represents.realloc (positive : 0 < newSize) (fits : newSize < arch.modulus) :
    ∃ changed result, Malloc.realloc arch memory zone ptr newSize = some (changed, result) ∧
      Reallocated arch memory zone limit blocks ptr bytes (roundUpBlockSize arch newSize) changed
        result := by
  rw [held.realloc_found used, if_neg (by omega)]
  exact held.resize used (roundUpBlockSize_lt fits) (roundUpBlockSize_cases fits).1

/-- A request of zero bytes is a `free` followed by a `malloc`. -/
theorem Represents.realloc_zero :
    ∃ changed result, Malloc.realloc arch memory zone ptr 0 = some (changed, result) ∧
      ((result = 0 ∧ ∃ new, Served arch zone limit memory changed blocks new ptr none) ∨
        (0 < result ∧ ∃ new granted,
          Served arch zone limit memory changed blocks new ptr (some (result, granted)))) := by
  obtain ⟨middle, mid, freed, released⟩ := held.free used
  have large := arch.modulus_large
  have small : 0 < arch.modulus := by omega
  obtain ⟨best, _, outcome⟩ := released.represents.malloc small
  rcases outcome with ⟨_, returned⟩ | ⟨changed, returned, _, granted, _⟩
  · refine ⟨middle, 0, ?_, .inl ⟨rfl, mid, released⟩⟩
    rw [held.realloc_found used, if_pos rfl, freed]
    exact returned
  · obtain ⟨positive, fresh, new, extent, _, served⟩ := granted
    refine ⟨changed, best + sizeofBlock arch, ?_, .inr ⟨positive, new, extent, served.represents,
      fun payload size => ?_, fun payload size inUse different x low high => ?_⟩⟩
    · rw [held.realloc_found used, if_pos rfl, freed]
      exact returned
    · rw [served.rebound, released.rebound]
      constructor
      · rintro (given | ⟨_, never | kept⟩)
        · exact .inl given
        · simp at never
        · exact .inr kept
      · rintro (given | kept)
        · exact .inl given
        · have still := (released.rebound payload size).mpr (.inr kept)
          exact .inr ⟨fun same => fresh size (same ▸ still), .inr kept⟩
    · have still := (released.rebound payload size).mpr (.inr ⟨different, inUse⟩)
      have separate : payload ≠ best + sizeofBlock arch := fun same => fresh size (same ▸ still)
      rw [served.kept payload size still separate x low high]
      exact released.kept payload size inUse different x low high

end

/-- A zone that holds the rounded request has room for the request itself. -/
theorem Resized.request (resized : Resized arch zone limit memory changed blocks ptr
      (roundUpBlockSize arch newSize) result) (fits : newSize < arch.modulus) :
    newSize ≤ roundUpBlockSize arch newSize := by
  obtain ⟨_, _, new, granted, enough, served⟩ := resized
  have used := (served.rebound result granted).mpr (.inl rfl)
  obtain ⟨front, block, rest, shape, _, _, size⟩ := used.focus
  subst shape size
  exact served.represents.covers fits enough

end FlapjackOS.Malloc
