import FlapjackOS.Malloc.Operations

namespace FlapjackOS.Malloc

open Machine Tiling

theorem roundUpBlockSize_cases (fits : bytes < Arch.modulus arch) :
    roundUpBlockSize arch bytes % 4 = 0 ∧
      ((bytes ≤ roundUpBlockSize arch bytes ∧ roundUpBlockSize arch bytes < bytes + 4 ∧
        roundUpBlockSize arch bytes < arch.modulus) ∨
          (roundUpBlockSize arch bytes = arch.modulus - 4 ∧ arch.modulus ≤ bytes + 3)) := by
  have large := arch.modulus_large
  have multiple := arch.modulus_aligned
  have reduced : roundUpBlockSize arch bytes =
      if arch.add bytes 3 / 4 * 4 < bytes then arch.modulus - 4 else arch.add bytes 3 / 4 * 4 := by
    simp [roundUpBlockSize, align, Arch.sizeMax, Nat.sub_sub]
  rw [reduced]
  by_cases small : bytes + 3 < arch.modulus
  · rw [Arch.add_of_lt small, if_neg (by omega)]
    omega
  · have wrapped : arch.add bytes 3 = bytes + 3 - arch.modulus := Arch.add_of_le (by omega) (by omega)
    rw [wrapped, if_pos (by omega)]
    omega

theorem roundUpBlockSize_multiple (fits : bytes < Arch.modulus arch) (multiple : bytes % 4 = 0) :
    roundUpBlockSize arch bytes = bytes := by
  have large := arch.modulus_aligned
  obtain ⟨rounded, ⟨above, below⟩ | wrapped⟩ := roundUpBlockSize_cases fits
  · omega
  · have small : bytes + 3 < arch.modulus := by omega
    rw [roundUpBlockSize, align, Arch.add_of_lt small, if_neg (by omega)]
    omega

theorem roundUpBlockSize_lt (fits : bytes < Arch.modulus arch) :
    roundUpBlockSize arch bytes < arch.modulus := by
  have large := arch.modulus_large
  rcases (roundUpBlockSize_cases fits).2 with rounded | wrapped
  · exact rounded.2.2
  · omega

section
variable {arch : Arch} {memory : Memory} {zone limit bytes alignment : Nat} {block : Block}
  {blocks front rest : List Block}

/-- A block of the zone is too small for a request that wrapped while rounding. -/
theorem Layout.covers (held : Layout arch memory zone limit (front ++ block :: rest))
    (fits : bytes < arch.modulus) (enough : roundUpBlockSize arch bytes ≤ block.size) :
    bytes ≤ roundUpBlockSize arch bytes := by
  have small := held.block_small
  rcases (roundUpBlockSize_cases fits).2 with covered | wrapped
  · exact covered.1
  · omega

theorem allocated_fresh (idle : block.inuse = false) :
    ¬ Allocated arch zone (front ++ block :: rest)
      (headerAfter arch zone front + sizeofBlock arch) extent := by
  intro used
  have wide := sizeofBlock_pos arch
  rcases allocated_append.mp used with early | ⟨flag, _⟩ | late
  · have bounds := early.bounds
    omega
  · simp [idle] at flag
  · have bounds := inUse_bounds late
    omega

/-- A fresh payload of at least `bytes` bytes was handed out at `payload`. -/
structure Granted (arch : Arch) (zone limit : Nat) (memory changed : Memory) (blocks : List Block)
    (bytes payload : Nat) : Prop where
  positive : 0 < payload
  fresh : ∀ extent, ¬ Allocated arch zone blocks payload extent
  served : ∃ new granted, bytes ≤ granted ∧
    Served arch zone limit memory changed blocks new payload (some (payload, granted))

/-- The allocating end of `malloc` and of the aligned case of `memalign`. -/
theorem Layout.grant (held : Layout arch memory zone limit (front ++ block :: rest))
    (frontCoalesced : Coalesced front) (restCoalesced : Coalesced rest)
    (fits : bytes < arch.modulus) (idle : block.inuse = false)
    (enough : roundUpBlockSize arch bytes ≤ block.size) :
    ∃ changed, considerSplittingBlock arch memory (headerAfter arch zone front)
        (roundUpBlockSize arch bytes) = some changed ∧
      arch.add (headerAfter arch zone front) (sizeofBlock arch) =
        headerAfter arch zone front + sizeofBlock arch ∧
      Granted arch zone limit memory (setInuse arch changed (headerAfter arch zone front) true)
        (front ++ block :: rest) bytes (headerAfter arch zone front + sizeofBlock arch) ∧
      ∀ x, headerAfter arch zone front + sizeofBlock arch ≤ x →
        x < headerAfter arch zone front + sizeofBlock arch + roundUpBlockSize arch bytes →
        setInuse arch changed (headerAfter arch zone front) true x = memory x := by
  have wide := sizeofBlock_pos arch
  have inside := held.suffix_fits
  simp only [span] at inside
  have covered := held.covers fits enough
  obtain ⟨changed, returned, served, same⟩ :=
    held.take frontCoalesced restCoalesced enough (roundUpBlockSize_cases fits).1
  refine ⟨changed, returned, ?_, ⟨by omega, fun _ => allocated_fresh idle, _, _, ?_, served⟩,
    fun x low high => same x ⟨.inr (.inl ⟨low, high⟩), clearOf_below (by omega)⟩ (.inr low)⟩
  · exact Arch.add_of_lt (by omega)
  · exact Nat.le_trans covered (splitSize_bounds enough).1

/-- What `malloc` does follows from the result of its search. A request for
which there is no room leaves memory as it is. -/
theorem Represents.malloc (held : Represents arch memory zone limit blocks)
    (fits : bytes < arch.modulus) :
    ∃ best, findBestFit arch memory zone (roundUpBlockSize arch bytes) = some best ∧
      ((best = 0 ∧ Malloc.malloc arch memory zone bytes = some (memory, 0)) ∨
        ∃ changed, Malloc.malloc arch memory zone bytes =
            some (changed, best + sizeofBlock arch) ∧ best ≠ 0 ∧
          Granted arch zone limit memory changed blocks bytes (best + sizeofBlock arch) ∧
          ∀ x, best + sizeofBlock arch ≤ x →
            x < best + sizeofBlock arch + roundUpBlockSize arch bytes → changed x = memory x) := by
  obtain ⟨best, search, outcome⟩ := held.bestFit (roundUpBlockSize arch bytes)
  refine ⟨best, search, ?_⟩
  rcases outcome with nothing | ⟨front, block, rest, shape, place, idle, enough, _⟩
  · left
    subst nothing
    exact ⟨rfl, by simp [Malloc.malloc, search]⟩
  · right
    subst shape place
    have positive := held.header_pos
    obtain ⟨changed, split, returned, granted, same⟩ :=
      held.grant held.coalesced.of_front held.coalesced.of_rest.tail fits idle enough
    refine ⟨_, ?_, by omega, granted, same⟩
    simp only [Malloc.malloc, search, Option.bind_eq_bind, Option.bind_some, split, returned]
    rw [if_neg (by omega)]
    rfl

/-- `memalign` finds a block: one whose payload is aligned already, or one with
room for the alignment, looked up by a sum that does not wrap around. -/
def BlockFound (arch : Arch) (memory : Memory) (zone bytes alignment : Nat) : Prop :=
  findBestFitAligned arch memory zone (roundUpBlockSize arch bytes) alignment ≠ some 0 ∨
    (roundUpBlockSize arch bytes + minSplitSize arch + alignment < arch.modulus ∧
      findBestFit arch memory zone (roundUpBlockSize arch bytes + minSplitSize arch + alignment) ≠
        some 0)

instance : Decidable (BlockFound arch memory zone bytes alignment) :=
  inferInstanceAs (Decidable (_ ∨ _))

/-- Carving a free block in two hands nothing out and touches no payload in use. -/
theorem Layout.carve (held : Layout arch memory zone limit (front ++ block :: rest))
    (idle : block.inuse = false) (room : kept + sizeofBlock arch + spare = block.size)
    (multiple : kept % 4 = 0) :
    Layout arch (linkAfter arch memory (headerAfter arch zone front)
        (headerAfter arch zone front + sizeofBlock arch + kept) spare kept)
      zone limit (front ++ ⟨kept, false⟩ :: ⟨spare, false⟩ :: rest) ∧
    ∀ payload extent,
      (Allocated arch zone (front ++ ⟨kept, false⟩ :: ⟨spare, false⟩ :: rest) payload extent ↔
        Allocated arch zone (front ++ block :: rest) payload extent) ∧
      (Allocated arch zone (front ++ block :: rest) payload extent →
        ∀ x, payload ≤ x → x < payload + extent →
          linkAfter arch memory (headerAfter arch zone front)
            (headerAfter arch zone front + sizeofBlock arch + kept) spare kept x = memory x) := by
  have fits := held.suffix_fits
  have chain := linkAfter_chain held.suffix room fits.le
  have width := sizeofBlock_aligned arch
  have own := held.header_aligned
  simp only [span] at fits
  rw [idle] at chain
  have place (base : Nat) : base + sizeofBlock arch + kept + sizeofBlock arch + spare =
      base + sizeofBlock arch + block.size := by omega
  refine ⟨held.replace (fun x early => ?_) chain ?_ ?_, fun payload extent => ⟨?_, ?_⟩⟩
  · exact linkAfter_outside (by omega) (by omega) (.inl early) (.inl (by omega))
      (next_clear held.suffix (clearOf_below (by omega)))
  · simp only [span]
    omega
  · intro address member
    simp only [addresses, List.mem_cons, place] at member
    rcases member with first | second | later
    · omega
    · omega
    · refine held.aligned address ?_
      rw [addresses_append]
      exact List.mem_append_right _ (List.mem_cons_of_mem _ later)
  · simp only [allocated_append, InUse, place, idle, Bool.false_eq_true, false_and, false_or]
  · intro used x low high
    have other : payload ≠ headerAfter arch zone front + sizeofBlock arch := by
      intro same
      exact allocated_fresh idle (same ▸ used)
    obtain ⟨⟨range, headers⟩, clear⟩ := @Allocated.elsewhere _ _ 0 _ _ _ _ _ _ used other low high
    refine linkAfter_outside (by omega) (by omega) clear ?_ ?_
    · simp only [Clear]
      omega
    · exact next_clear held.suffix headers

theorem Granted.after (granted : Granted arch zone limit middle changed mid bytes payload)
    (carved : ∀ payload extent,
      (Allocated arch zone mid payload extent ↔ Allocated arch zone blocks payload extent) ∧
      (Allocated arch zone blocks payload extent →
        ∀ x, payload ≤ x → x < payload + extent → middle x = memory x)) :
    Granted arch zone limit memory changed blocks bytes payload := by
  obtain ⟨positive, fresh, new, extent, enough, served⟩ := granted
  refine ⟨positive, fun extent used => fresh extent ((carved payload extent).1.mpr used), new, extent,
    enough, served.represents, fun other size => ?_, fun other size used different x low high => ?_⟩
  · rw [served.rebound, (carved other size).1]
  · rw [served.kept other size ((carved other size).1.mpr used) different x low high]
    exact (carved other size).2 used x low high

theorem hole_aligned (aligned : base % 4 = 0) (multiple : alignment % 4 = 0) :
    (alignment - base % alignment) % 4 = 0 := by
  have dvd : 4 ∣ alignment := Nat.dvd_of_mod_eq_zero multiple
  have remainder : base % alignment % 4 = 0 := by rw [Nat.mod_mod_of_dvd _ dvd, aligned]
  omega

theorem hole_reaches (positive : 0 < alignment) :
    (base + (alignment - base % alignment)) % alignment = 0 := by
  have small := Nat.mod_lt base positive
  have split := Nat.div_add_mod base alignment
  have total : base + (alignment - base % alignment) = alignment * (base / alignment + 1) := by
    rw [Nat.mul_add]
    omega
  rw [total, Nat.mul_mod_right]

/-- The header of the block that `memalign` carves out of `best`. -/
def requestBlock (arch : Arch) (best alignment : Nat) : Nat :=
  arch.add (arch.add best (sizeofBlock arch))
    (arch.sub alignment (arch.add (arch.add best (sizeofBlock arch)) (sizeofBlock arch) % alignment))

/-- Memory once `memalign` has carved that block out of `best`. -/
def carved (arch : Arch) (memory : Memory) (best alignment : Nat) : Memory :=
  let newSizeForBest := arch.sub (arch.sub (requestBlock arch best alignment) best) (sizeofBlock arch)
  linkAfter arch memory best (requestBlock arch best alignment)
    (arch.sub (arch.sub (size arch memory best) newSizeForBest) (sizeofBlock arch)) newSizeForBest

/-- The bytes that stay in front of the carved block. -/
def hole (arch : Arch) (best alignment : Nat) : Nat :=
  alignment - (best + sizeofBlock arch + sizeofBlock arch) % alignment

theorem sub_hole (fits : base + sizeofBlock arch + hole arch base alignment < arch.modulus) :
    arch.sub (arch.sub (base + sizeofBlock arch + hole arch base alignment) base) (sizeofBlock arch) =
      hole arch base alignment := by
  rw [Arch.sub_sub_of_le (by omega) fits]
  omega

/-- What the second search of `memalign` asks for. -/
abbrev secondRequest (arch : Arch) (bytes alignment : Nat) : Nat :=
  arch.add (arch.add (roundUpBlockSize arch bytes) (minSplitSize arch)) alignment

/-- No free block has an aligned payload already, and the second search returns `best`. -/
structure Searched (arch : Arch) (memory : Memory) (zone bytes alignment best : Nat) : Prop where
  unaligned : findBestFitAligned arch memory zone (roundUpBlockSize arch bytes) alignment = some 0
  search : findBestFit arch memory zone (secondRequest arch bytes alignment) = some best

theorem memalign_carves (positive : 0 < alignment)
    (searched : Searched arch memory zone bytes alignment best) (some : best ≠ 0) :
    memalign arch memory zone bytes alignment =
      (considerSplittingBlock arch (carved arch memory best alignment) (requestBlock arch best alignment)
        (roundUpBlockSize arch bytes)).bind fun changed =>
          if arch.add (requestBlock arch best alignment) (sizeofBlock arch) % alignment = 0 then
            Option.some (setInuse arch changed (requestBlock arch best alignment) true,
              arch.add (requestBlock arch best alignment) (sizeofBlock arch))
          else none := by
  simp only [memalign, searched.unaligned, searched.search, Option.bind_eq_bind, Option.bind_some]
  rw [if_neg (by omega), if_neg (by simp), if_neg some]
  rfl

/-- A block of `size` bytes at `base` takes the hole, a header and the request. -/
structure Roomy (arch : Arch) (base size bytes alignment : Nat) : Prop where
  inside : base + sizeofBlock arch + size < arch.modulus
  fits : hole arch base alignment + sizeofBlock arch + bytes ≤ size
  positive : 0 < alignment
  bounded : alignment < arch.modulus

section
variable {base size : Nat}

theorem Roomy.requestBlock (roomy : Roomy arch base size bytes alignment) :
    Malloc.requestBlock arch base alignment =
      base + sizeofBlock arch + hole arch base alignment := by
  obtain ⟨inside, fits, positive, bounded⟩ := roomy
  have small := Nat.mod_lt (base + sizeofBlock arch + sizeofBlock arch) positive
  rw [Malloc.requestBlock, Arch.add_of_lt (show base + sizeofBlock arch < _ by omega),
    Arch.add_of_lt (show base + sizeofBlock arch + sizeofBlock arch < _ by omega),
    Arch.sub_of_le small.le bounded]
  exact Arch.add_of_lt (by simp only [hole] at fits; omega)

theorem Roomy.carved (roomy : Roomy arch base size bytes alignment)
    (extent : Malloc.size arch memory base = size) :
    Malloc.carved arch memory base alignment =
      linkAfter arch memory base (base + sizeofBlock arch + hole arch base alignment)
        (size - hole arch base alignment - sizeofBlock arch) (hole arch base alignment) := by
  have place := roomy.requestBlock
  obtain ⟨inside, fits, positive, bounded⟩ := roomy
  have kept : arch.sub (arch.sub (base + sizeofBlock arch + hole arch base alignment) base)
      (sizeofBlock arch) = hole arch base alignment := sub_hole (by omega)
  have spare : arch.sub (arch.sub size (hole arch base alignment)) (sizeofBlock arch) =
      size - hole arch base alignment - sizeofBlock arch := Arch.sub_sub_of_le (by omega) (by omega)
  simp only [Malloc.carved, place, kept, extent, spare]

end

/-- The second half of `memalign`: a free block gives up its tail, starting at
the first header whose payload is aligned. -/
theorem Represents.memalign_carved
    (held : Represents arch memory zone limit (front ++ block :: rest)) (fits : bytes < arch.modulus)
    (multiple : alignment % 4 = 0) (idle : block.inuse = false)
    (roomy : Roomy arch (headerAfter arch zone front) block.size
      (roundUpBlockSize arch bytes) alignment)
    (searched : Searched arch memory zone bytes alignment (headerAfter arch zone front)) :
    ∃ changed payload, memalign arch memory zone bytes alignment = some (changed, payload) ∧
      Granted arch zone limit memory changed (front ++ block :: rest) bytes payload ∧
      payload % alignment = 0 := by
  have width := sizeofBlock_aligned arch
  have own := held.header_aligned
  have first := held.header_pos
  have extent := held.suffix.size
  have room := roomy.fits
  have carving := held.carve idle (show hole arch (headerAfter arch zone front) alignment +
    sizeofBlock arch + (block.size - hole arch (headerAfter arch zone front) alignment -
      sizeofBlock arch) = block.size by omega) (hole_aligned (by omega) multiple)
  generalize base_eq : headerAfter arch zone front = base at *
  have reaches := @hole_reaches _ (base + sizeofBlock arch + sizeofBlock arch) roomy.positive
  rw [memalign_carves roomy.positive searched (by omega), roomy.requestBlock, roomy.carved extent]
  obtain ⟨layout, carved⟩ := carving
  have frontCoalesced : Coalesced (front ++ [⟨hole arch base alignment, false⟩]) :=
    held.coalesced.reflag (by simp [idle]) (List.isChain_singleton _)
  rw [List.append_cons front ⟨hole arch base alignment, false⟩] at layout carved
  have place : headerAfter arch zone (front ++ [⟨hole arch base alignment, false⟩]) =
      base + sizeofBlock arch + hole arch base alignment := by
    rw [headerAfter_concat, base_eq]
  obtain ⟨changed, split, returned, granted, _⟩ :=
    layout.grant frontCoalesced held.coalesced.of_rest.tail fits rfl (by simp only; omega)
  rw [place] at split returned granted
  have aligned : (base + sizeofBlock arch + hole arch base alignment + sizeofBlock arch) % alignment = 0 := by
    rw [← reaches, hole]
    congr 1
    omega
  refine ⟨_, _, ?_, granted.after carved, aligned⟩
  rw [split, Option.bind_some, returned, if_pos aligned]

/-- The searches of `memalign` find a block: one whose payload is aligned already, or one
with room for the hole, a header and the request. -/
def Serviceable (arch : Arch) (memory : Memory) (zone bytes alignment : Nat) : Prop :=
  findBestFitAligned arch memory zone (roundUpBlockSize arch bytes) alignment ≠ some 0 ∨
    match findBestFit arch memory zone (secondRequest arch bytes alignment) with
    | some best => best ≠ 0 ∧
      hole arch best alignment + sizeofBlock arch + roundUpBlockSize arch bytes ≤ size arch memory best
    | none => False

instance : Decidable (Serviceable arch memory zone bytes alignment) :=
  match found : findBestFit arch memory zone (secondRequest arch bytes alignment) with
  | some best => decidable_of_iff (_ ∨ best ≠ 0 ∧
      hole arch best alignment + sizeofBlock arch + roundUpBlockSize arch bytes ≤ size arch memory best)
      (by rw [Serviceable, found])
  | none => decidable_of_iff (_ ∨ False) (by rw [Serviceable, found])

theorem power_multiple (power : Nat.isPowerOfTwo alignment) (large : 4 ≤ alignment) : alignment % 4 = 0 := by
  obtain ⟨k, rfl⟩ := power
  have two : 2 ≤ k := (Nat.pow_le_pow_iff_right (Nat.lt_succ_self 1)).mp large
  exact Nat.mod_eq_zero_of_dvd (Nat.pow_dvd_pow 2 two)

/-- A power of two below four divides what four divides. -/
theorem power_divides (power : Nat.isPowerOfTwo alignment) (small : alignment < 4)
    (multiple : x % 4 = 0) : x % alignment = 0 := by
  obtain ⟨k, rfl⟩ := power
  have few : k < 2 := (Nat.pow_lt_pow_iff_right (Nat.lt_succ_self 1)).mp small
  have divides : (2 : Nat) ^ k ∣ 2 ^ 2 := Nat.pow_dvd_pow 2 few.le
  exact Nat.mod_eq_zero_of_dvd (divides.trans (Nat.dvd_of_mod_eq_zero multiple))

theorem Represents.memalign (held : Represents arch memory zone limit blocks)
    (fits : bytes < arch.modulus) (bounded : alignment < arch.modulus) (power : alignment.isPowerOfTwo)
    (serviceable : Serviceable arch memory zone bytes alignment) :
    ∃ changed payload, Malloc.memalign arch memory zone bytes alignment = some (changed, payload) ∧
      Granted arch zone limit memory changed blocks bytes payload ∧ payload % alignment = 0 := by
  have positive : 0 < alignment := Nat.pos_of_isPowerOfTwo power
  obtain ⟨best, search, outcome⟩ := held.bestFitAligned (roundUpBlockSize arch bytes) alignment
  rcases outcome with nothing | ⟨front, block, rest, shape, place, idle, enough, aligned⟩
  · -- no block is aligned already, so the second search decides
    subst nothing
    have available := serviceable.resolve_left (fun other => other search)
    obtain ⟨best, again, outcome⟩ := held.bestFit (secondRequest arch bytes alignment)
    rw [again] at available
    rcases outcome with nothing | ⟨front, block, rest, shape, place, idle, _⟩
    · exact (available.1 nothing).elim
    · subst shape place
      have inside := held.suffix_fits
      simp only [span] at inside
      have extent := held.suffix.size
      have room := available.2
      rw [extent] at room
      have large : 4 ≤ alignment := by
        by_contra small
        have width := sizeofBlock_aligned arch
        have own := held.header_aligned
        refine held.search_none search idle (by omega) (beq_iff_eq.mpr ?_)
        rw [Arch.add_of_lt (by omega)]
        exact power_divides power (by omega) (by omega)
      exact held.memalign_carved fits (power_multiple power large) idle
        ⟨by omega, room, positive, bounded⟩ ⟨search, again⟩
  · subst shape place
    obtain ⟨changed, split, returned, granted, _⟩ :=
      held.grant held.coalesced.of_front held.coalesced.of_rest.tail fits idle enough
    have first := held.header_pos
    rw [beq_iff_eq, returned] at aligned
    refine ⟨_, _, ?_, granted, aligned⟩
    simp only [Malloc.memalign, search, Option.bind_eq_bind, Option.bind_some, split, returned]
    rw [if_neg (by omega), if_pos (by omega)]
    rfl

/-- A block that is found by a sum that does not wrap around has room. -/
theorem Represents.serviceable (held : Represents arch memory zone limit blocks) (positive : 0 < alignment)
    (found : BlockFound arch memory zone bytes alignment) :
    Serviceable arch memory zone bytes alignment := by
  rcases found with aligned | ⟨bounded, present⟩
  · exact .inl aligned
  · right
    obtain ⟨best, search, outcome⟩ :=
      held.bestFit (roundUpBlockSize arch bytes + minSplitSize arch + alignment)
    rw [secondRequest, Arch.add_add_of_lt bounded, search]
    rcases outcome with nothing | ⟨front, block, rest, shape, place, _, enough, _⟩
    · exact (present (nothing ▸ search)).elim
    · subst shape place
      have first := held.header_pos
      refine ⟨by omega, ?_⟩
      rw [held.suffix.size]
      simp only [hole, minSplitSize] at enough ⊢
      omega

end

end FlapjackOS.Malloc
