import FlapjackOS.Malloc.Safety

namespace FlapjackOS.Malloc

open Machine Tiling Runs

variable {arch : Arch} {memory created : Memory} {zone limit bytes alignment base extent vtable start : Nat}
  {block : Block} {blocks front rest : List Block} {calls : List Call}

/-- The header that `consider_splitting_block` makes, if any. -/
def splitHeaders (arch : Arch) (memory : Memory) (block blockSize : Nat) : List Nat :=
  if minSplitSize arch < arch.sub (size arch memory block) blockSize then
    [arch.add (arch.add block (sizeofBlock arch)) blockSize]
  else []

/-- The headers that `memalign` makes. -/
def memalignHeaders (arch : Arch) (memory : Memory) (zone bytes alignment : Nat) : List Nat :=
  let bytes := roundUpBlockSize arch bytes
  match findBestFitAligned arch memory zone bytes alignment with
  | none => []
  | some best =>
    if best ≠ 0 then splitHeaders arch memory best bytes
    else match findBestFit arch memory zone
        (arch.add (arch.add bytes (minSplitSize arch)) alignment) with
      | none => []
      | some best =>
        if best = 0 then []
        else requestBlock arch best alignment :: splitHeaders arch (carved arch memory best alignment)
          (requestBlock arch best alignment) bytes

/-- `memalign` returns null and leaves the zone as it is, or it returns the aligned payload
of a block that is large enough in a proper block list. All headers it makes are inside. -/
structure Honoured (arch : Arch) (memory : Memory) (zone limit bytes alignment : Nat) : Prop where
  returns : ∃ changed ptr, memalign arch memory zone bytes alignment = some (changed, ptr) ∧
    ((ptr = 0 ∧ changed = memory) ∨ (ptr % alignment = 0 ∧ ∃ blocks granted,
      Represents arch changed zone limit blocks ∧ Allocated arch zone blocks ptr granted ∧
      bytes ≤ granted))
  inside : ∀ header ∈ memalignHeaders arch memory zone bytes alignment,
    firstBlock arch zone ≤ header ∧ header + sizeofBlock arch ≤ limit

/-- Every `memalign` keeps the promise. -/
def Honours (arch : Arch) (zone limit : Nat) (heap : Heap) : Call → Prop
  | .memalign bytes alignment => Honoured arch heap.memory zone limit bytes alignment
  | _ => True

/-- A block that is large enough is split inside. -/
theorem splitHeaders_inside (inside : base + sizeofBlock arch + extent ≤ limit)
    (bounded : limit < arch.modulus) (stored : size arch memory base = extent) (enough : bytes ≤ extent) :
    ∀ header ∈ splitHeaders arch memory base bytes, base ≤ header ∧ header + sizeofBlock arch ≤ limit := by
  intro header member
  rw [splitHeaders, stored, Arch.sub_of_le enough (by omega)] at member
  split at member
  · rename_i splits
    rw [minSplitSize] at splits
    rw [List.mem_singleton.mp member, Arch.add_add_of_lt (by omega)]
    omega
  · simp at member

section
variable (held : Represents arch memory zone limit (front ++ block :: rest))
include held

theorem Represents.inside :
    headerAfter arch zone front + sizeofBlock arch + block.size ≤ limit := by
  rw [← held.suffix_total]
  simp only [span]
  omega

/-- What ends inside a block is in front of the block that follows it. -/
theorem Represents.next_ahead {finish : Nat}
    (inside : finish ≤ headerAfter arch zone front + sizeofBlock arch + block.size) :
    next arch memory (headerAfter arch zone front) = 0 ∨
      finish ≤ next arch memory (headerAfter arch zone front) := by
  rw [held.suffix.next, follow]
  split
  · exact .inl rfl
  · exact .inr inside

theorem Represents.carved_inside (base_eq : headerAfter arch zone front = base)
    (roomy : Roomy arch base block.size bytes alignment) :
    ∀ header ∈ requestBlock arch base alignment :: splitHeaders arch (carved arch memory base alignment)
        (requestBlock arch base alignment) bytes,
      firstBlock arch zone ≤ header ∧ header + sizeofBlock arch ≤ limit := by
  subst base_eq
  have own := held.inside
  have top := held.bounded
  have place := roomy.requestBlock
  have inside := roomy.inside
  have fits := roomy.fits
  -- the carved block gets what the hole and its header leave
  have stored : size arch (carved arch memory (headerAfter arch zone front) alignment)
        (requestBlock arch (headerAfter arch zone front) alignment) =
      block.size - hole arch (headerAfter arch zone front) alignment - sizeofBlock arch := by
    rw [roomy.carved held.suffix.size, place, size_eq, linkAfter_new (by omega) (by omega)
      (by omega) (by omega) (held.next_ahead (by omega))]
  have low := @firstBlock_le arch zone front
  intro header member
  rcases List.mem_cons.mp member with request | later
  · omega
  · have room : requestBlock arch (headerAfter arch zone front) alignment + sizeofBlock arch +
        (block.size - hole arch (headerAfter arch zone front) alignment - sizeofBlock arch) ≤ limit := by
      omega
    have bounds := splitHeaders_inside room top stored (by omega) header later
    omega

end

theorem Represents.headers_inside (held : Represents arch memory zone limit blocks)
    (positive : 0 < alignment) (bounded : alignment < arch.modulus)
    (serviceable : Serviceable arch memory zone bytes alignment) :
    ∀ header ∈ memalignHeaders arch memory zone bytes alignment,
      firstBlock arch zone ≤ header ∧ header + sizeofBlock arch ≤ limit := by
  obtain ⟨best, search, outcome⟩ := held.bestFitAligned (roundUpBlockSize arch bytes) alignment
  intro header member
  simp only [memalignHeaders, search] at member
  rcases outcome with nothing | ⟨front, block, rest, shape, place, _, enough, _⟩
  · have available := serviceable.resolve_left (fun other => other (nothing ▸ search))
    obtain ⟨best, again, outcome⟩ := held.bestFit (secondRequest arch bytes alignment)
    rw [again] at available
    rw [if_neg (not_not.mpr nothing), again] at member
    simp only [if_neg available.1] at member
    obtain ⟨front, block, rest, shape, place, _, _⟩ := outcome.resolve_left available.1
    subst shape
    have fits := available.2
    rw [place, held.suffix.size, ← place] at fits
    have own := held.inside
    have top := held.bounded
    exact held.carved_inside place.symm ⟨by omega, fits, positive, bounded⟩ header member
  · subst shape place
    have own := held.inside
    have low := @firstBlock_le arch zone front
    rw [if_pos held.header_pos.ne'] at member
    have bounds := splitHeaders_inside own held.bounded held.suffix.size enough header member
    omega

theorem Represents.honoured (held : Represents arch memory zone limit blocks) (fits : bytes < arch.modulus)
    (bounded : alignment < arch.modulus) (power : alignment.isPowerOfTwo)
    (serviceable : Serviceable arch memory zone bytes alignment) :
    Honoured arch memory zone limit bytes alignment := by
  obtain ⟨changed, ptr, returned, granted, aligned⟩ := held.memalign fits bounded power serviceable
  obtain ⟨_, _, new, extent, enough, served⟩ := granted
  have handed := (served.rebound ptr extent).mpr (.inl rfl)
  exact ⟨⟨changed, ptr, returned, .inr ⟨aligned, new, extent, served.represents, handed, enough⟩⟩,
    held.headers_inside (Nat.pos_of_isPowerOfTwo power) bounded serviceable⟩

theorem power_modulus (power : alignment.isPowerOfTwo) (bounded : alignment < arch.modulus) :
    alignment ∣ arch.modulus ∧ 2 * alignment ≤ arch.modulus := by
  obtain ⟨n, size⟩ : ∃ n, arch.modulus = 2 ^ n := by
    cases arch with
    | i386 => exact ⟨32, rfl⟩
    | x86_64 => exact ⟨64, rfl⟩
  obtain ⟨k, rfl⟩ := power
  rw [size] at bounded ⊢
  have less : k < n := (Nat.pow_lt_pow_iff_right (by omega)).mp bounded
  refine ⟨Nat.pow_dvd_pow 2 less.le, ?_⟩
  calc 2 * 2 ^ k = 2 ^ (k + 1) := by rw [Nat.pow_succ, Nat.mul_comm]
    _ ≤ 2 ^ n := Nat.pow_le_pow_right (by omega) less

/-- The place of the carved block, up to a wrap-around. -/
theorem requestBlock_eq (positive : 0 < alignment) (bounded : alignment < arch.modulus)
    (divides : alignment ∣ arch.modulus) (inside : base + sizeofBlock arch < arch.modulus) :
    requestBlock arch base alignment = arch.add (base + sizeofBlock arch) (hole arch base alignment) := by
  have delta : arch.add (base + sizeofBlock arch) (sizeofBlock arch) % alignment =
      (base + sizeofBlock arch + sizeofBlock arch) % alignment := Nat.mod_mod_of_dvd _ divides
  have small := Nat.mod_lt (base + sizeofBlock arch + sizeofBlock arch) positive
  rw [requestBlock, Arch.add_of_lt inside, delta, Arch.sub_of_le small.le bounded, hole]

/-- Below the end of the address space, the next aligned payload is not behind it. -/
theorem hole_below (divides : alignment ∣ arch.modulus)
    (below : base + sizeofBlock arch + sizeofBlock arch < arch.modulus) :
    base + sizeofBlock arch + sizeofBlock arch + hole arch base alignment ≤ arch.modulus := by
  obtain ⟨m, size⟩ := divides
  have split := Nat.div_add_mod (base + sizeofBlock arch + sizeofBlock arch) alignment
  have less : (base + sizeofBlock arch + sizeofBlock arch) / alignment < m := by
    refine Nat.div_lt_of_lt_mul ?_
    omega
  have next : alignment * ((base + sizeofBlock arch + sizeofBlock arch) / alignment + 1) ≤ alignment * m :=
    Nat.mul_le_mul_left _ less
  rw [Nat.mul_add] at next
  rw [hole]
  omega

section
variable {block newBlock newSize blockSize : Nat} (keptFits : blockSize < arch.modulus)
include keptFits

/-- What is written when a block is linked in front of an existing one, wherever it is. -/
theorem linkAfter_eq (behind : block + sizeofBlock arch ≤ newBlock) (some : next arch memory block ≠ 0) :
    linkAfter arch memory block newBlock newSize blockSize =
      setNext arch (setPrev arch (setSize arch (setInuse arch (setSize arch (setNext arch
        (setPrev arch memory newBlock block) newBlock (next arch memory block)) newBlock newSize)
        newBlock false) block blockSize) (next arch memory block) newBlock) block newBlock := by
  simp only [next_eq] at some
  simp only [linkAfter, next_eq]
  simp (disch := omega) [some]

/-- A header over the start of the following block keeps its size, or else its link. -/
theorem linkAfter_overlap (behind : block + sizeofBlock arch ≤ newBlock) (sizeFits : newSize < arch.modulus)
    (some : next arch memory block ≠ 0) :
    size arch (linkAfter arch memory block newBlock newSize blockSize) newBlock = newSize ∨
      next arch (linkAfter arch memory block newBlock newSize blockSize) newBlock ≠ 0 := by
  have words := arch.wordBytes_cases
  have nextFits : next arch memory block < arch.modulus := load_lt
  rw [linkAfter_eq keptFits behind some]
  generalize next arch memory block = following at *
  simp only [sizeofBlock] at behind
  by_cases clear : newBlock + 3 * arch.wordBytes ≤ following ∨
      following + arch.wordBytes ≤ newBlock + 2 * arch.wordBytes
  · left
    simp only [size, setNext, setPrev, setSize, setInuse]
    rw [load_store_disjoint (by omega), load_store_disjoint (by omega), load_store_disjoint (by omega),
      load_congr (fun x low high => storeByte_other (by omega)), load_store_same]
    exact Nat.mod_eq_of_lt sizeFits
  · right
    simp only [next, setNext, setPrev, setSize, setInuse]
    by_cases near : following < newBlock + 2 * arch.wordBytes
    · -- the lowest byte of the link and that of the new `prev` behind it are not both zero
      intro zero
      have low := load_eq_zero zero (Nat.le_refl _) (by omega)
      have high := load_eq_zero zero (show newBlock + arch.wordBytes ≤ following by omega) (by omega)
      rw [store_outside (by omega), store_outside (by omega), store_outside (by omega),
        storeByte_other (by omega), store_outside (by omega), store, if_pos (by omega)] at low
      rw [store_outside (by omega), store, if_pos (by omega)] at high
      have first := congrArg UInt8.toNat low
      have second := congrArg UInt8.toNat high
      simp only [Nat.sub_self, Nat.pow_zero, Nat.div_one, UInt8.toNat_ofNat', UInt8.toNat_zero] at first second
      omega
    · rw [load_store_disjoint (by omega), load_store_disjoint (by omega), load_store_disjoint (by omega),
        load_congr (fun x low high => storeByte_other (by omega)), load_store_disjoint (by omega),
        load_store_same, show 256 ^ arch.wordBytes = arch.modulus from rfl, Nat.mod_eq_of_lt nextFits]
      exact some

/-- A header in front of the last block that is linked behind it. -/
theorem linkAfter_prev (before : newBlock + sizeofBlock arch ≤ block) (fits : block < arch.modulus)
    (sizeFits : newSize < arch.modulus) (last : next arch memory block = 0) :
    prev arch (linkAfter arch memory block newBlock newSize blockSize) newBlock = block := by
  simp only [next_eq] at last
  simp only [linkAfter, next_eq, prev_eq]
  simp (disch := omega) [last]

end

/-- What the list of blocks says about the header of one of them. -/
structure Located (arch : Arch) (memory : Memory) (limit request bytes : Nat) : Prop where
  size : Malloc.size arch memory request = bytes
  high : request + sizeofBlock arch + bytes ≤ limit
  linked : next arch memory request = 0 ∨ (request + sizeofBlock arch + bytes) % 4 = 0 ∧
    request + sizeofBlock arch + bytes + sizeofBlock arch ≤ limit
  behind : prev arch memory request < request

theorem Represents.located {request : Nat} (held : Represents arch memory zone limit blocks)
    (used : Allocated arch zone blocks (request + sizeofBlock arch) bytes) :
    Located arch memory limit request bytes := by
  obtain ⟨start, block, rest, shape, _, place, extent⟩ := used.focus
  subst shape extent
  have header := held.suffix.1
  have top := held.inside
  have own : headerAfter arch zone start = request := by omega
  rw [own] at header top
  obtain ⟨previous, following, stored, _⟩ := Header.mk.inj header
  refine ⟨stored, top, ?_, ?_⟩
  · rw [following, follow]
    cases rest with
    | nil => exact .inl rfl
    | cons later tail =>
      right
      have total := held.suffix_total
      simp only [span] at total
      refine ⟨held.aligned _ ?_, by omega⟩
      rw [addresses_append, ← headerAfter, own]
      exact List.mem_append_right _ (by simp [addresses])
  · rw [previous]
    have first := held.header_pos
    have wide := sizeofBlock_pos arch
    rcases List.eq_nil_or_concat start with rfl | ⟨earlier, final, rfl⟩
    · exact own ▸ first
    · rw [List.concat_eq_append, lastHeader_append, ← headerAfter]
      rw [List.concat_eq_append, headerAfter_concat] at own
      omega

/-- If the sum wraps around, the header of the remainder of a block is not inside the zone. -/
theorem unsplit_of_inside {request : Nat} (zonePositive : 0 < zone) (bounded : limit < arch.modulus)
    (fits : bytes < arch.modulus) (reach : alignment ≤ request + sizeofBlock arch)
    (wraps : arch.modulus ≤ roundUpBlockSize arch bytes + sizeofBlock arch + alignment)
    (low : firstBlock arch zone ≤ request) (room : request + sizeofBlock arch + bytes ≤ limit)
    (inside : ∀ header ∈ splitHeaders arch memory request (roundUpBlockSize arch bytes),
      firstBlock arch zone ≤ header ∧ header + sizeofBlock arch ≤ limit) :
    arch.sub (size arch memory request) (roundUpBlockSize arch bytes) ≤ sizeofBlock arch := by
  by_contra splits
  have words := arch.wordBytes_cases
  have rounded := roundUpBlockSize_cases fits
  obtain ⟨above, below⟩ := inside _ (by
    rw [splitHeaders, minSplitSize, if_pos (Nat.lt_of_not_le splits)]
    exact List.mem_singleton_self _)
  rw [Arch.add_of_lt (show request + sizeofBlock arch < arch.modulus by omega)] at above below
  simp only [firstBlock, sizeofZone] at above low
  by_cases beyond : arch.modulus ≤ request + sizeofBlock arch + roundUpBlockSize arch bytes
  · rw [Arch.add_of_le beyond (by omega)] at above below
    omega
  · rw [Arch.add_of_lt (by omega)] at above below
    omega

/-- What the promise says about the carved block: it is in the block list as it was linked,
and it was not split. -/
structure Placed (arch : Arch) (memory : Memory) (zone limit bytes alignment base request : Nat) : Prop where
  low : firstBlock arch zone ≤ request
  aligned : (request + sizeofBlock arch) % alignment = 0
  whole : arch.sub (size arch (carved arch memory base alignment) request) (roundUpBlockSize arch bytes) ≤
    sizeofBlock arch
  enough : bytes ≤ size arch (carved arch memory base alignment) request
  high : request + sizeofBlock arch + size arch (carved arch memory base alignment) request ≤ limit
  linked : next arch (carved arch memory base alignment) request = 0 ∨
    (request + sizeofBlock arch + size arch (carved arch memory base alignment) request) % 4 = 0 ∧
      request + sizeofBlock arch + size arch (carved arch memory base alignment) request +
        sizeofBlock arch ≤ limit
  behind : prev arch (carved arch memory base alignment) request < request

/-- If the sum wraps around, keeping the promise leaves no room to split the carved block. -/
theorem Honoured.placed (honoured : Honoured arch memory zone limit bytes alignment)
    (positive : 0 < alignment) (zonePositive : 0 < zone) (bounded : limit < arch.modulus)
    (fits : bytes < arch.modulus)
    (wraps : arch.modulus ≤ roundUpBlockSize arch bytes + sizeofBlock arch + alignment)
    (searched : Searched arch memory zone bytes alignment base) (some : base ≠ 0) :
    Placed arch memory zone limit bytes alignment base (requestBlock arch base alignment) := by
  obtain ⟨⟨changed, ptr, returned, outcome⟩, inside⟩ := honoured
  simp only [memalignHeaders, searched.unaligned, searched.search, ne_eq, not_true_eq_false, if_false,
    if_neg some, List.mem_cons] at inside
  rw [memalign_carves positive searched some] at returned
  generalize requestBlock arch base alignment = request at *
  obtain ⟨low, high⟩ := inside request (.inl rfl)
  obtain ⟨middle, split, returned⟩ := Option.bind_eq_some_iff.mp returned
  rw [Arch.add_of_lt (show request + sizeofBlock arch < arch.modulus by omega)] at returned
  split at returned
  case isFalse => cases returned
  case isTrue aligned =>
    cases returned
    have first : 0 < firstBlock arch zone := by simp only [firstBlock]; omega
    obtain ⟨_, blocks, granted, held, used, enough⟩ := outcome.resolve_left (by omega)
    have reach : alignment ≤ request + sizeofBlock arch :=
      Nat.le_of_dvd (by omega) (Nat.dvd_of_mod_eq_zero aligned)
    have bounds := held.payload_bounds used
    have whole := unsplit_of_inside zonePositive bounded fits reach wraps low (by omega)
      (fun header member => inside header (.inr member))
    rw [considerSplittingBlock, minSplitSize, if_neg (Nat.not_lt.mpr whole)] at split
    cases split
    obtain ⟨extent, top, linked, behind⟩ := held.located used
    simp only [size_eq, next_eq, prev_eq, header_setInuse] at extent linked behind
    subst extent
    exact ⟨low, aligned, whole, enough, top, linked, behind⟩

section
variable (held : Represents arch memory zone limit (front ++ block :: rest))
  (base_eq : headerAfter arch zone front = base)
include held base_eq

/-- A carved block whose place wraps around would be linked behind a block that it precedes. -/
theorem Represents.placed_below (power : alignment.isPowerOfTwo) (bounded : alignment < arch.modulus)
    (placed : Placed arch memory zone limit bytes alignment base (requestBlock arch base alignment)) :
    base + sizeofBlock arch + hole arch base alignment < arch.modulus := by
  subst base_eq
  by_contra beyond
  have large := arch.modulus_large
  have words := arch.wordBytes_cases
  have width : sizeofBlock arch = 4 * arch.wordBytes := rfl
  have inside := held.inside
  have top := held.bounded
  obtain ⟨divides, double⟩ := power_modulus power bounded
  have small : hole arch (headerAfter arch zone front) alignment ≤ alignment :=
    Nat.sub_le _ _
  have below := @hole_below arch alignment (headerAfter arch zone front) divides
  generalize base_eq : headerAfter arch zone front = base at *
  have place : requestBlock arch base alignment =
      base + sizeofBlock arch + hole arch base alignment - arch.modulus := by
    rw [requestBlock_eq (Nat.pos_of_isPowerOfTwo power) bounded divides (by omega),
      Arch.add_of_le (by omega) (by omega)]
  have behind := placed.behind
  rw [place] at behind
  have last : next arch memory base = 0 := by
    have total := held.suffix_total
    have link := held.suffix.next
    rw [base_eq] at link total
    rw [link, follow]
    cases rest with
    | nil => rfl
    | cons later tail =>
      simp only [span] at total
      omega
  rw [carved, place, linkAfter_prev (arch.sub_lt _ _) (by omega) (by omega) (arch.sub_lt _ _) last] at behind
  omega

/-- A block without room for the request is found only by a sum that wraps around, and then
the promise is broken. -/
theorem Represents.cramped (fits : bytes < arch.modulus) (power : alignment.isPowerOfTwo)
    (bounded : alignment < arch.modulus)
    (found : secondRequest arch bytes alignment ≤ block.size)
    (cramped : block.size < hole arch base alignment + sizeofBlock arch + roundUpBlockSize arch bytes)
    (searched : Searched arch memory zone bytes alignment base) :
    ¬ Honoured arch memory zone limit bytes alignment := by
  intro honoured
  have large := arch.modulus_large
  have width : sizeofBlock arch = 4 * arch.wordBytes := rfl
  have inside := held.inside
  have top := held.bounded
  have first := held.header_pos
  have positive := Nat.pos_of_isPowerOfTwo power
  obtain ⟨divides, double⟩ := power_modulus power bounded
  have small : hole arch base alignment ≤ alignment := Nat.sub_le _ _
  have wraps : arch.modulus ≤ roundUpBlockSize arch bytes + sizeofBlock arch + alignment := by
    by_contra fitting
    rw [secondRequest, minSplitSize, Arch.add_add_of_lt (by omega)] at found
    omega
  have placed := honoured.placed positive held.positive top fits wraps searched (by omega)
  have below := held.placed_below base_eq power bounded placed
  have place : requestBlock arch base alignment = base + sizeofBlock arch + hole arch base alignment := by
    rw [requestBlock_eq positive bounded divides (by omega), Arch.add_of_lt below]
  rw [place] at placed
  have kept : arch.sub (arch.sub (base + sizeofBlock arch + hole arch base alignment) base)
      (sizeofBlock arch) = hole arch base alignment := sub_hole below
  have extent := held.suffix.size
  have link := held.suffix.next
  rw [base_eq] at extent link inside
  obtain ⟨_, aligned, whole, enough, high, linked, _⟩ := placed
  simp only [carved, place, kept, extent] at whole enough high linked
  have rounded := roundUpBlockSize_cases fits
  have reach : alignment ≤ base + sizeofBlock arch + hole arch base alignment + sizeofBlock arch :=
    Nat.le_of_dvd (by omega) (Nat.dvd_of_mod_eq_zero aligned)
  by_cases covers : hole arch base alignment + sizeofBlock arch ≤ block.size
  · -- the block is smaller than the request, and too small for the difference to wrap around
    have ahead := held.next_ahead (show base + sizeofBlock arch + hole arch base alignment +
      sizeofBlock arch ≤ _ by rw [base_eq]; omega)
    rw [base_eq] at ahead
    rw [Arch.sub_sub_of_le covers (by omega), size_eq,
      linkAfter_new (by omega) below (by omega) (by omega) ahead] at whole enough
    have short : block.size - hole arch base alignment - sizeofBlock arch < roundUpBlockSize arch bytes := by
      omega
    rw [Arch.sub_of_lt short (roundUpBlockSize_lt fits)] at whole
    dsimp only at enough
    omega
  · -- the header is not inside the block, so it is over the block behind
    have spare : arch.sub (arch.sub block.size (hole arch base alignment)) (sizeofBlock arch) =
        block.size + arch.modulus - hole arch base alignment - sizeofBlock arch :=
      Arch.sub_sub_of_lt (by omega) (by omega)
    have some : next arch memory base ≠ 0 := by
      rw [link, follow]
      split
      · rename_i final
        have total := held.suffix_total
        rw [final, span_singleton] at total
        omega
      · omega
    rcases linkAfter_overlap (show hole arch base alignment < arch.modulus by omega)
      (show base + sizeofBlock arch ≤ base + sizeofBlock arch + hole arch base alignment by omega)
      (arch.sub_lt (arch.sub block.size (hole arch base alignment)) (sizeofBlock arch)) some with stored | follows
    · rw [stored, spare] at high
      omega
    · have width4 := sizeofBlock_aligned arch
      have modulus4 := arch.modulus_aligned
      obtain ⟨multiple, room⟩ := linked.resolve_left follows
      omega

end

/-- Without room, `memalign` dereferences a null pointer or damages the zone. -/
theorem Represents.serviceable_of_honoured (held : Represents arch memory zone limit blocks)
    (fits : bytes < arch.modulus) (bounded : alignment < arch.modulus) (power : alignment.isPowerOfTwo)
    (honoured : Honoured arch memory zone limit bytes alignment) :
    Serviceable arch memory zone bytes alignment := by
  by_contra refused
  obtain ⟨unaligned, second⟩ := not_or.mp refused
  rw [not_not] at unaligned
  obtain ⟨best, search, outcome⟩ := held.bestFit (secondRequest arch bytes alignment)
  rw [search] at second
  rcases outcome with nothing | ⟨front, block, rest, shape, place, _, enough, _⟩
  · obtain ⟨changed, ptr, returned, _⟩ := honoured.returns
    have positive := Nat.pos_of_isPowerOfTwo power
    simp only [Malloc.memalign, unaligned, search, Option.bind_eq_bind, Option.bind_some] at returned
    rw [if_neg (by omega), if_neg (by simp), if_pos nothing] at returned
    cases returned
  · subst shape
    have first := held.header_pos
    have room : ¬ hole arch best alignment + sizeofBlock arch + roundUpBlockSize arch bytes ≤
        size arch memory best := fun room => second ⟨by omega, room⟩
    rw [place, held.suffix.size, ← place] at room
    exact held.cramped place.symm fits power bounded enough (Nat.lt_of_not_le room) ⟨unaligned, search⟩ honoured

/-- In every run, each `memalign` keeps its promise if and only if its searches find a block
with room for the request. -/
theorem memalign_honoured_iff (setup : Setup arch memory vtable start bytes created zone)
    (client : Legal (step arch zone) (Client arch) (Heap.fresh created) calls) :
    Legal (step arch zone) (Honours arch zone (zone + bytes)) (Heap.fresh created) calls ↔
      Legal (step arch zone) (Provides arch zone) (Heap.fresh created) calls := by
  refine @legal_iff_legal_of_possible _ _ _ _ _ _ (fun heap => ∃ blocks, Tracks arch zone (zone + bytes) heap blocks)
    _ _ ?_ ?_ client ⟨_, setup.tracks⟩
  · rintro heap call next ⟨blocks, tracks⟩ client provided stepped
    obtain ⟨after, moved, advances⟩ := tracks.serve ⟨client, provided⟩
    cases moved.symm.trans stepped
    exact advances.tracks
  · rintro heap call ⟨blocks, tracks⟩ client
    cases call with
    | memalign bytes alignment =>
      obtain ⟨fits, bounded, power⟩ := client
      exact ⟨tracks.represents.serviceable_of_honoured fits bounded power,
        tracks.represents.honoured fits bounded power⟩
    | malloc | free | realloc | write => exact Iff.rfl

theorem memalign_honoured_sample :
    Legal (step .i386 4096) (Honours .i386 4096 (4096 + 512)) (Heap.fresh sampleZone)
        [.malloc 10, .memalign 20 64, .memalign 8 2, .free 4224, .memalign 100 16] ∧
      ¬ Legal (step .i386 4096) (Honours .i386 4096 (4096 + 512)) (Heap.fresh sampleZone)
        [.malloc 10, .memalign 500 64] := by
  rw [memalign_honoured_iff sampleZone_setup (by decide +kernel),
    memalign_honoured_iff sampleZone_setup (by decide +kernel)]
  decide +kernel

/-- Where no block is large enough, `memalign` reads the size of the null block. Where the
sum wraps around, it writes a header in front of the block that it has just carved. -/
theorem memalign_without_block :
    memalign .i386 sampleZone 4096 500 64 = none ∧
      memalignHeaders .i386 sampleZone 4096 4294967275 4 = [4124, 4120] := by
  decide +kernel

end FlapjackOS.Malloc
