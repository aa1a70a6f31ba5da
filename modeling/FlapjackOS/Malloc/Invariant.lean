import FlapjackOS.Malloc.Search

/-! The heap invariant. Memory represents a list of blocks that tile the zone,
and each edit of the list is carried out by the matching edit of memory. -/

namespace FlapjackOS.Malloc

open Machine Tiling

variable {arch : Arch} {zone x limit : Nat} {blocks front rest : List Block} {memory changed : Memory}
  {block : Block}

/-- Address of the first block header, right behind the zone's own header. -/
def firstBlock (arch : Arch) (zone : Nat) : Nat := zone + sizeofZone arch

/-- Address of the header behind the blocks of `front`. -/
abbrev headerAfter (arch : Arch) (zone : Nat) (front : List Block) : Nat :=
  firstBlock arch zone + span (sizeofBlock arch) front

/-- Memory holds a zone whose block list is `blocks` and which ends at `limit`. -/
structure Layout (arch : Arch) (memory : Memory) (zone limit : Nat) (blocks : List Block) :
    Prop where
  positive : 0 < zone
  bounded : limit < arch.modulus
  room : firstBlock arch zone + sizeofBlock arch ≤ limit
  head : head arch memory zone = firstBlock arch zone
  chain : Chain arch memory 0 0 (firstBlock arch zone) blocks
  total : firstBlock arch zone + span (sizeofBlock arch) blocks = limit
  aligned : ∀ address ∈ addresses (sizeofBlock arch) (firstBlock arch zone) blocks, address % 4 = 0

/-- The layout between two calls: free neighbours have been merged. -/
structure Represents (arch : Arch) (memory : Memory) (zone limit : Nat) (blocks : List Block) : Prop
    extends Layout arch memory zone limit blocks where
  coalesced : Coalesced blocks

/-- A block in use has its payload of `bytes` bytes at `payload`. -/
def Allocated (arch : Arch) (zone : Nat) (blocks : List Block) (payload bytes : Nat) : Prop :=
  InUse (sizeofBlock arch) (firstBlock arch zone) blocks payload bytes

theorem firstBlock_le (front : List Block) : firstBlock arch zone ≤ headerAfter arch zone front :=
  Nat.le_add_right _ _

theorem headerAfter_concat : headerAfter arch zone (front ++ [block]) =
    headerAfter arch zone front + sizeofBlock arch + block.size := by
  simp only [headerAfter, span_append, span_singleton]
  omega

theorem allocated_append : Allocated arch zone (front ++ rest) payload bytes ↔
    Allocated arch zone front payload bytes ∨
      InUse (sizeofBlock arch) (headerAfter arch zone front) rest payload bytes :=
  inUse_append

theorem Allocated.bounds (used : Allocated arch zone front payload bytes) :
    firstBlock arch zone + sizeofBlock arch ≤ payload ∧ payload + bytes ≤ headerAfter arch zone front :=
  inUse_bounds used

theorem Allocated.focus (used : Allocated arch zone blocks payload bytes) :
    ∃ front block rest, blocks = front ++ block :: rest ∧ block.inuse = true ∧
      payload = headerAfter arch zone front + sizeofBlock arch ∧ bytes = block.size :=
  InUse.focus used

theorem Allocated.clearOf (used : Allocated arch zone blocks payload extent) (low : payload ≤ x)
    (high : x < payload + extent) : ClearOf arch (firstBlock arch zone) blocks x := by
  intro address member
  rcases inUse_clear used member with before | behind
  · exact .inl (by omega)
  · exact .inr (by omega)

section
variable (held : Layout arch memory zone limit blocks)
include held

theorem Layout.nonempty : blocks ≠ [] := by
  intro empty
  have total := held.total
  have room := held.room
  have wide := sizeofBlock_pos arch
  simp only [empty, span] at total
  omega

theorem Layout.first_pos : 0 < firstBlock arch zone := by
  have positive := held.positive
  simp only [firstBlock]
  omega

theorem Layout.walk {visit : β → Nat → β} (state : β) :
    Malloc.walk arch memory visit arch.modulus (Malloc.head arch memory zone) state =
      some ((addresses (sizeofBlock arch) (firstBlock arch zone) blocks).foldl visit state) := by
  have enough : blocks.length ≤ arch.modulus := by
    have short := length_le_span blocks (sizeofBlock_pos arch)
    have total := held.total
    have bounded := held.bounded
    omega
  rw [held.head, ← walk_chain held.chain held.first_pos enough, follow, if_neg held.nonempty]

theorem Layout.header_ne_zero :
    ∀ address ∈ addresses (sizeofBlock arch) (firstBlock arch zone) blocks, address ≠ 0 := by
  intro address member
  have bounds := addresses_bounds member
  have first := held.first_pos
  omega

/-- The best-fit loop finds the first of the smallest free blocks that would do. -/
theorem Layout.search_argmin (bytes : Nat) (suitable : Nat → Bool) :
    Malloc.walk arch memory (considerBlock arch memory bytes suitable) arch.modulus
        (Malloc.head arch memory zone) 0 =
      some ((((addresses (sizeofBlock arch) (firstBlock arch zone) blocks).filter
        (Fits arch memory bytes suitable)).argmin (size arch memory)).getD 0) := by
  rw [held.walk 0, foldl_considerBlock arch memory bytes suitable held.header_ne_zero]

/-- A free block that is large enough, or 0. -/
def FindsBlock (arch : Arch) (zone : Nat) (blocks : List Block) (bytes : Nat) (suitable : Nat → Bool)
    (best : Nat) : Prop :=
  best = 0 ∨ ∃ front block rest, blocks = front ++ block :: rest ∧ best = headerAfter arch zone front ∧
    block.inuse = false ∧ bytes ≤ block.size ∧ suitable best = true

theorem Layout.search (bytes : Nat) (suitable : Nat → Bool) :
    ∃ best, Malloc.walk arch memory (considerBlock arch memory bytes suitable) arch.modulus
        (Malloc.head arch memory zone) 0 = some best ∧ FindsBlock arch zone blocks bytes suitable best := by
  refine ⟨_, held.search_argmin bytes suitable, ?_⟩
  cases least : ((addresses (sizeofBlock arch) (firstBlock arch zone) blocks).filter
    (Fits arch memory bytes suitable)).argmin (size arch memory) with
  | none => exact .inl rfl
  | some best =>
    right
    obtain ⟨member, fitting⟩ := List.mem_filter.mp (List.argmin_mem least)
    obtain ⟨enough, accepted, idle⟩ := of_decide_eq_true fitting
    obtain ⟨front, block, rest, shape, place⟩ := mem_addresses_focus member
    have suffix := (chain_append.mp (shape ▸ held.chain)).2
    rw [place, suffix.size] at enough
    rw [place, suffix.inuse] at idle
    exact ⟨front, block, rest, shape, place, idle, enough, accepted⟩

theorem Layout.bestFit (bytes : Nat) :
    ∃ best, findBestFit arch memory zone bytes = some best ∧
      FindsBlock arch zone blocks bytes (fun _ => true) best :=
  held.search bytes _

theorem Layout.bestFitAligned (bytes alignment : Nat) :
    ∃ best, findBestFitAligned arch memory zone bytes alignment = some best ∧
      FindsBlock arch zone blocks bytes
        (fun block => arch.add block (sizeofBlock arch) % alignment == 0) best :=
  held.search bytes _

end

/-- Where the best-fit loop finds nothing, no free block would do. -/
theorem Layout.search_none (held : Layout arch memory zone limit (front ++ block :: rest))
    (nothing : Malloc.walk arch memory (considerBlock arch memory bytes suitable) arch.modulus
      (Malloc.head arch memory zone) 0 = some 0)
    (idle : block.inuse = false) (enough : bytes ≤ block.size) :
    suitable (headerAfter arch zone front) ≠ true := by
  intro accepted
  have member : headerAfter arch zone front ∈
      addresses (sizeofBlock arch) (firstBlock arch zone) (front ++ block :: rest) := by
    rw [addresses_append]
    exact List.mem_append_right _ (by simp [addresses])
  have fitting : Fits arch memory bytes suitable (headerAfter arch zone front) := by
    have suffix := (chain_append.mp held.chain).2
    refine ⟨?_, accepted, ?_⟩
    · rw [suffix.size]
      exact enough
    · rw [suffix.inuse]
      exact idle
  rw [held.search_argmin, Option.some.injEq] at nothing
  cases least : ((addresses (sizeofBlock arch) (firstBlock arch zone) (front ++ block :: rest)).filter
    (Fits arch memory bytes suitable)).argmin (size arch memory) with
  | none =>
    have empty := List.argmin_eq_none.mp least
    exact List.filter_eq_nil_iff.mp empty _ member (decide_eq_true fitting)
  | some best =>
    rw [least, Option.getD_some] at nothing
    exact held.header_ne_zero best (List.mem_filter.mp (List.argmin_mem least)).1 nothing

theorem Layout.foundBlock (held : Layout arch memory zone limit blocks)
    (used : Allocated arch zone blocks payload bytes) :
    Malloc.foundBlock arch memory zone (payload - sizeofBlock arch) = some true := by
  obtain ⟨front, block, rest, shape, _, place, _⟩ := used.focus
  have member : payload - sizeofBlock arch ∈
      addresses (sizeofBlock arch) (firstBlock arch zone) blocks := by
    rw [shape, place, addresses_append]
    exact List.mem_append_right _ (by simp [addresses])
  rw [Malloc.foundBlock, held.walk false, foldl_found]
  simp [member]

section
variable (held : Layout arch memory zone limit (front ++ block :: rest))
include held

/-- Replacing the blocks from some position on. -/
theorem Layout.replace (same : ∀ x, x < headerAfter arch zone front → changed x = memory x)
    (suffix : Chain arch changed (lastHeader arch 0 (firstBlock arch zone) front) 0
      (headerAfter arch zone front) (new :: tail))
    (sameSpan : span (sizeofBlock arch) (new :: tail) = span (sizeofBlock arch) (block :: rest))
    (aligned : ∀ address ∈ addresses (sizeofBlock arch) (headerAfter arch zone front) (new :: tail),
      address % 4 = 0) :
    Layout arch changed zone limit (front ++ new :: tail) where
  positive := held.positive
  bounded := held.bounded
  room := held.room
  head := by
    rw [← held.head]
    refine load_congr (fun x low high => same x ?_)
    simp only [headerAfter, firstBlock, sizeofZone]
    omega
  chain := held.chain.replace same suffix
  total := by
    have total := held.total
    rw [span_append, sameSpan, ← span_append]
    exact total
  aligned := by
    intro address member
    rw [addresses_append] at member
    rcases List.mem_append.mp member with early | late
    · refine held.aligned address ?_
      rw [addresses_append]
      exact List.mem_append_left _ early
    · exact aligned address late

theorem Layout.header_aligned : headerAfter arch zone front % 4 = 0 := by
  refine held.aligned _ ?_
  rw [addresses_append]
  exact List.mem_append_right _ (by simp [addresses])

theorem Layout.header_pos : 0 < headerAfter arch zone front :=
  Nat.add_pos_left held.first_pos _

theorem Layout.suffix_total :
    headerAfter arch zone front + span (sizeofBlock arch) (block :: rest) = limit := by
  rw [← held.total, span_append, Nat.add_assoc]

theorem Layout.suffix_fits :
    headerAfter arch zone front + span (sizeofBlock arch) (block :: rest) < arch.modulus := by
  rw [held.suffix_total]
  exact held.bounded

theorem Layout.block_small : block.size + 4 < arch.modulus := by
  have inside := held.suffix_fits
  have words := arch.wordBytes_cases
  simp only [span, sizeofBlock] at inside
  omega

theorem Layout.suffix :
    Chain arch memory (lastHeader arch 0 (firstBlock arch zone) front) 0
      (headerAfter arch zone front) (block :: rest) :=
  (chain_append.mp held.chain).2

end

section
variable (held : Layout arch memory zone limit blocks)
  (used : Allocated arch zone blocks payload bytes)
include held used

theorem Layout.payload_aligned : payload % 4 = 0 := by
  obtain ⟨front, block, rest, shape, _, place, _⟩ := used.focus
  subst shape
  have width := sizeofBlock_aligned arch
  have own := held.header_aligned
  omega

theorem Layout.payload_bounds :
    firstBlock arch zone + sizeofBlock arch ≤ payload ∧ payload + bytes ≤ limit := by
  have bounds := inUse_bounds used
  rw [held.total] at bounds
  exact bounds

theorem Layout.write (same : ∀ x, x < payload ∨ payload + bytes ≤ x → changed x = memory x) :
    Layout arch changed zone limit blocks where
  positive := held.positive
  bounded := held.bounded
  room := held.room
  head := by
    rw [← held.head]
    have bounds := inUse_bounds used
    refine load_congr (fun x low high => same x ?_)
    simp only [firstBlock, sizeofZone] at bounds
    omega
  chain := by
    refine held.chain.congr_headers (fun address member x low high => same x ?_)
    rcases inUse_clear used member with before | behind
    · exact .inr (by omega)
    · exact .inl (by omega)
  total := held.total
  aligned := held.aligned

theorem Layout.payload_size : size arch memory (payload - sizeofBlock arch) = bytes := by
  obtain ⟨front, block, rest, shape, _, place, extent⟩ := used.focus
  subst shape
  rw [place, Nat.add_sub_cancel, held.suffix.size, extent]

theorem Layout.payload_inuse : inuse arch memory (payload - sizeofBlock arch) = true := by
  obtain ⟨front, block, rest, shape, flag, place, _⟩ := used.focus
  subst shape
  rw [place, Nat.add_sub_cancel, held.suffix.inuse, flag]

end

end FlapjackOS.Malloc
