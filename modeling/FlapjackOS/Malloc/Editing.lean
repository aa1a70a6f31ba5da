import FlapjackOS.Malloc.Blocks

/-! Effect of the primitive edits on the block list: carving a block out of
another one, absorbing a neighbour, and flipping the in-use flag. -/

namespace FlapjackOS.Malloc

open Machine Tiling

/-- Address `x` is not part of the header at `block`. -/
def Clear (arch : Arch) (block x : Nat) : Prop := x < block ∨ block + sizeofBlock arch ≤ x

/-- Address `x` lies in none of the headers of `blocks`. -/
def ClearOf (arch : Arch) (base : Nat) (blocks : List Block) (x : Nat) : Prop :=
  ∀ address ∈ addresses (sizeofBlock arch) base blocks, Clear arch address x

section
variable {arch : Arch} {base x : Nat} {block : Block} {blocks front rest : List Block}

theorem clearOf_cons : ClearOf arch base (block :: rest) x ↔
    Clear arch base x ∧ ClearOf arch (base + sizeofBlock arch + block.size) rest x := by
  simp [ClearOf, addresses]

theorem clearOf_append : ClearOf arch base (front ++ rest) x ↔
    ClearOf arch base front x ∧ ClearOf arch (base + span (sizeofBlock arch) front) rest x := by
  simp only [ClearOf, addresses_append, List.mem_append, or_imp, forall_and]

theorem clearOf_below (early : x < base) : ClearOf arch base blocks x := by
  intro address member
  have bounds := addresses_bounds member
  exact .inl (by omega)

end

section
variable {arch : Arch} {memory : Memory} {block newBlock newSize blockSize removed after x : Nat}

section
variable (behind : block + sizeofBlock arch ≤ newBlock) (fits : newBlock < arch.modulus)
include behind fits

theorem linkAfter_block (keptFits : blockSize < arch.modulus)
    (ahead : next arch memory block = 0 ∨ newBlock + sizeofBlock arch ≤ next arch memory block) :
    header arch (linkAfter arch memory block newBlock newSize blockSize) block =
      { header arch memory block with next := newBlock, size := blockSize } := by
  simp only [next_eq] at ahead
  simp only [linkAfter, next_eq]
  by_cases final : (header arch memory block).next = 0
  · simp (disch := omega) [final]
  · simp (disch := omega) [final]

theorem linkAfter_new (sizeFits : newSize < arch.modulus) (keptFits : blockSize < arch.modulus)
    (ahead : next arch memory block = 0 ∨ newBlock + sizeofBlock arch ≤ next arch memory block) :
    header arch (linkAfter arch memory block newBlock newSize blockSize) newBlock =
      ⟨block, next arch memory block, newSize, false⟩ := by
  have nextFits : next arch memory block < arch.modulus := load_lt
  have wide := sizeofBlock_pos arch
  simp only [next_eq] at ahead nextFits ⊢
  simp only [linkAfter, next_eq]
  by_cases final : (header arch memory block).next = 0
  · simp (disch := omega) [final]
  · simp (disch := omega) [final]

end

theorem linkAfter_outside (behind : block + sizeofBlock arch ≤ newBlock)
    (keptFits : blockSize < arch.modulus)
    (clearBlock : Clear arch block x) (clearNew : Clear arch newBlock x)
    (clearNext : next arch memory block = 0 ∨ Clear arch (next arch memory block) x) :
    linkAfter arch memory block newBlock newSize blockSize x = memory x := by
  simp only [next_eq] at clearNext
  simp only [linkAfter, next_eq]
  simp (disch := omega) only [header_setSize, header_setInuse_other, header_setSize_other,
    header_setNext_other, header_setPrev_other]
  rw [setNext_outside clearBlock]
  split
  · rename_i present
    rw [setPrev_outside (clearNext.resolve_left present), setSize_outside clearBlock,
      setInuse_outside clearNew, setSize_outside clearNew, setNext_outside clearNew,
      setPrev_outside clearNew]
  · rw [setSize_outside clearBlock, setInuse_outside clearNew, setSize_outside clearNew,
      setNext_outside clearNew, setPrev_outside clearNew]

theorem absorb_block (fits : block < arch.modulus) (afterFits : after < arch.modulus)
    (sum : size arch memory block + (size arch memory removed + sizeofBlock arch) < arch.modulus)
    (ahead : after = 0 ∨ block + sizeofBlock arch ≤ after) :
    header arch (absorb arch memory block removed after) block =
      { header arch memory block with
        next := after
        size := size arch memory block + (size arch memory removed + sizeofBlock arch) } := by
  have tailSum : size arch memory removed + sizeofBlock arch < arch.modulus := by omega
  simp only [absorb]
  rw [Arch.add_of_lt tailSum, Arch.add_of_lt sum]
  by_cases final : after = 0
  · simp (disch := omega) [final]
  · simp (disch := omega) [final]

theorem absorb_outside (clearBlock : Clear arch block x)
    (clearAfter : after = 0 ∨ Clear arch after x) :
    absorb arch memory block removed after x = memory x := by
  simp only [absorb]
  split
  · rename_i present
    rw [setPrev_outside (clearAfter.resolve_left present), setNext_outside clearBlock,
      setSize_outside clearBlock]
  · rw [setNext_outside clearBlock, setSize_outside clearBlock]

end

section
variable {arch : Arch} {memory : Memory} {before base kept spare x : Nat} {block removed : Block}
  {rest : List Block}

section
variable (chain : Chain arch memory before 0 base (block :: rest))
include chain

theorem Chain.next :
    Malloc.next arch memory base =
      follow 0 (base + sizeofBlock arch + block.size) rest := by
  rw [next_eq, chain.1]

theorem Chain.size : Malloc.size arch memory base = block.size := by
  rw [size_eq, chain.1]

theorem Chain.inuse : Malloc.inuse arch memory base = block.inuse :=
  congrArg Header.inuse chain.1

theorem Chain.prev : Malloc.prev arch memory base = before := by
  rw [prev_eq, chain.1]

theorem next_clear (headers : ClearOf arch (base + sizeofBlock arch + block.size) rest x) :
    next arch memory base = 0 ∨ Clear arch (next arch memory base) x := by
  rw [chain.next]
  cases rest with
  | nil => exact .inl rfl
  | cons second tail =>
    rw [follow, if_neg (List.cons_ne_nil second tail)]
    exact .inr (headers _ (List.mem_cons_self ..))

theorem setInuse_chain :
    Chain arch (setInuse arch memory base flag) before 0 base ({ block with inuse := flag } :: rest) := by
  refine ⟨?_, chain.2.congr (fun x low _ => setInuse_outside (by omega))⟩
  rw [header_setInuse, chain.1]

theorem linkAfter_chain (room : kept + sizeofBlock arch + spare = block.size)
    (fits : base + span (sizeofBlock arch) (block :: rest) ≤ arch.modulus) :
    Chain arch (linkAfter arch memory base (base + sizeofBlock arch + kept) spare kept) before 0 base
      (⟨kept, block.inuse⟩ :: ⟨spare, false⟩ :: rest) := by
  have wide := sizeofBlock_pos arch
  have link := chain.next
  simp only [span] at fits
  have place : base + sizeofBlock arch + kept + sizeofBlock arch + spare =
      base + sizeofBlock arch + block.size := by omega
  cases rest with
  | nil =>
    have final : next arch memory base = 0 := by rw [link]; rfl
    refine ⟨?_, ?_, trivial⟩
    · rw [linkAfter_block (by omega) (by omega) (by omega) (.inl final), chain.1]
      simp [follow]
    · rw [linkAfter_new (by omega) (by omega) (by omega) (by omega) (.inl final), final]
      simp [follow]
  | cons second tail =>
    simp only [span] at fits
    have second_eq : next arch memory base = base + sizeofBlock arch + block.size := by
      rw [link]; simp [follow]
    have ahead : base + sizeofBlock arch + kept + sizeofBlock arch ≤ next arch memory base := by omega
    refine ⟨?_, ?_, ?_, ?_⟩
    · rw [linkAfter_block (by omega) (by omega) (by omega) (.inr ahead), chain.1]
      simp [follow]
    · rw [linkAfter_new (by omega) (by omega) (by omega) (by omega) (.inr ahead), second_eq]
      simp [follow, place]
    · have moved : header arch (linkAfter arch memory base (base + sizeofBlock arch + kept) spare kept)
          (next arch memory base) = { header arch memory (next arch memory base) with
            prev := base + sizeofBlock arch + kept } := by
        have some : next arch memory base ≠ 0 := by omega
        simp only [next_eq] at some ahead ⊢
        simp only [linkAfter, next_eq]
        simp (disch := omega) [some]
      rw [second_eq] at moved
      rw [place, moved, chain.2.1]
    · rw [place]
      refine chain.2.2.congr (fun x low high => linkAfter_outside (by omega) (by omega) ?_ ?_ (.inr ?_))
      · exact .inr (by omega)
      · exact .inr (by omega)
      · exact .inr (by omega)

end

theorem absorb_chain (chain : Chain arch memory before 0 base (block :: removed :: rest))
    (fits : base + span (sizeofBlock arch) (block :: removed :: rest) ≤ arch.modulus) :
    Chain arch (absorb arch memory base (base + sizeofBlock arch + block.size)
        (next arch memory (base + sizeofBlock arch + block.size))) before 0 base
      (⟨block.size + (removed.size + sizeofBlock arch), block.inuse⟩ :: rest) := by
  have wide := sizeofBlock_pos arch
  have link := Chain.next chain.2
  simp only [span] at fits
  have place : base + sizeofBlock arch + (block.size + (removed.size + sizeofBlock arch)) =
      base + sizeofBlock arch + block.size + sizeofBlock arch + removed.size := by omega
  have sum : size arch memory base + (size arch memory (base + sizeofBlock arch + block.size) +
      sizeofBlock arch) < arch.modulus := by
    rw [chain.size, Chain.size chain.2]; omega
  rw [link]
  cases rest with
  | nil =>
    refine ⟨?_, trivial⟩
    rw [show follow 0 _ ([] : List Block) = 0 from rfl,
      absorb_block (by omega) (by omega) sum (.inl rfl), chain.size, Chain.size chain.2, chain.1]
    rfl
  | cons second tail =>
    simp only [span] at fits
    rw [show follow 0 _ (second :: tail) = _ from if_neg (List.cons_ne_nil _ _)]
    refine ⟨?_, ?_, ?_⟩
    · rw [absorb_block (by omega) (by omega) sum (.inr (by omega)), chain.size, Chain.size chain.2,
        chain.1]
      simp [follow, place]
    · rw [place, absorb, if_pos (by omega)]
      simp (disch := omega) [chain.2.2.1]
    · rw [place]
      exact chain.2.2.2.congr (fun x low high =>
        absorb_outside (.inr (by omega)) (.inr (.inr (by omega))))

section
variable (chain : Chain arch memory before 0 base (block :: rest))
include chain

/-- A free block merges with a free block behind it, and with no other. -/
theorem mergeFollowing_chain (idle : block.inuse = false)
    (fits : base + span (sizeofBlock arch) (block :: rest) ≤ arch.modulus) :
    Chain arch (mergeFollowing arch memory base (next arch memory base)) before 0 base
      (pushFree (sizeofBlock arch) block.size rest) := by
  have link := chain.next
  unfold mergeFollowing
  cases rest with
  | nil =>
    rw [link, if_neg (by simp [follow])]
    simpa [pushFree, ← idle] using chain
  | cons second tail =>
    have wide := sizeofBlock_pos arch
    simp only [follow, if_neg (List.cons_ne_nil second tail)] at link
    rw [link, Chain.inuse chain.2]
    by_cases used : second.inuse = true
    · rw [if_neg (by simp [used])]
      simpa [pushFree, used, ← idle] using chain
    · simp only [Bool.not_eq_true] at used
      rw [if_pos ⟨by omega, used⟩]
      have merged := absorb_chain chain fits
      rw [idle] at merged
      simpa [pushFree, used] using merged

theorem mergeFollowing_outside (clear : Clear arch base x)
    (headers : ClearOf arch (base + sizeofBlock arch + block.size) rest x) :
    mergeFollowing arch memory base (next arch memory base) x = memory x := by
  have link := chain.next
  unfold mergeFollowing
  split
  · rename_i merging
    cases rest with
    | nil => exact (merging.1 (by rw [link]; rfl)).elim
    | cons second tail =>
      simp only [follow, if_neg (List.cons_ne_nil second tail)] at link
      rw [link]
      exact absorb_outside clear (next_clear chain.2 (clearOf_cons.mp headers).2)
  · rfl

/-- Bytes that splitting a block to `kept` bytes cannot touch: the kept
payload and everything outside the block but the headers behind it. -/
def KeptBySplit (arch : Arch) (base kept : Nat) (block : Block) (rest : List Block) (x : Nat) : Prop :=
  (x < base ∨ (base + sizeofBlock arch ≤ x ∧ x < base + sizeofBlock arch + kept) ∨
    base + sizeofBlock arch + block.size ≤ x) ∧
  ClearOf arch (base + sizeofBlock arch + block.size) rest x

theorem considerSplittingBlock_chain (room : kept ≤ block.size) (aligned : (base + sizeofBlock arch + kept) % 4 = 0)
    (fits : base + span (sizeofBlock arch) (block :: rest) ≤ arch.modulus) :
    ∃ result, considerSplittingBlock arch memory base kept = some result ∧
      Chain arch result before 0 base (splitFront (sizeofBlock arch) block kept rest) ∧
      ∀ x, KeptBySplit arch base kept block rest x → result x = memory x := by
  have wide := sizeofBlock_pos arch
  have bound := fits
  simp only [span] at bound
  have remaining : arch.sub (size arch memory base) kept = block.size - kept := by
    rw [chain.size, Arch.sub_of_le room (by omega)]
  unfold considerSplittingBlock splitFront
  simp only [remaining, minSplitSize]
  by_cases enough : sizeofBlock arch < block.size - kept
  · have inner : arch.add base (sizeofBlock arch) = base + sizeofBlock arch :=
      Arch.add_of_lt (by omega)
    have place : arch.add (base + sizeofBlock arch) kept = base + sizeofBlock arch + kept :=
      Arch.add_of_lt (by omega)
    have spare : arch.sub (block.size - kept) (sizeofBlock arch) =
        block.size - kept - sizeofBlock arch := Arch.sub_of_le (by omega) (by omega)
    have behind : base + sizeofBlock arch + kept + sizeofBlock arch +
        (block.size - kept - sizeofBlock arch) = base + sizeofBlock arch + block.size := by omega
    have carved := linkAfter_chain chain
      (show kept + sizeofBlock arch + (block.size - kept - sizeofBlock arch) = block.size by omega) fits
    have merged := mergeFollowing_chain carved.2 rfl (by simp only [span]; omega)
    simp only [if_pos enough, inner, place, spare, align, aligned, if_true]
    refine ⟨_, rfl, ⟨?_, merged⟩, fun x untouched => ?_⟩
    · -- the header in front of the carved block is out of reach of the merge
      obtain ⟨first, tail, shape, _⟩ :=
        pushFree_cons (sizeofBlock arch) (block.size - kept - sizeofBlock arch) rest
      rw [header_congr (fun x low high => mergeFollowing_outside carved.2 (.inl (by omega)) ?_),
        carved.1, shape]
      · simp [follow]
      · exact clearOf_below (by omega)
    · obtain ⟨range, headers⟩ := untouched
      rw [mergeFollowing_outside carved.2 (by simp only [Clear]; omega) (by rwa [behind])]
      refine linkAfter_outside (by omega) (by omega) ?_ ?_ ?_
      · simp only [Clear]; omega
      · simp only [Clear]; omega
      · exact next_clear chain headers
  · simp only [if_neg enough]
    exact ⟨memory, rfl, chain, fun _ _ => rfl⟩

end

end

end FlapjackOS.Malloc
