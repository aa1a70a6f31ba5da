import Mathlib.Data.List.Chain

/-! A region tiled by blocks, each a header of fixed width followed by its
payload. Positions follow from the sizes, so gaps and overlaps cannot be built. -/

namespace FlapjackOS.Tiling

structure Block where
  size : Nat
  inuse : Bool
  deriving DecidableEq, Repr

variable {h base payload bytes : Nat} {block : Block} {blocks front rest : List Block}

/-- Bytes covered by the blocks, headers of width `h` included. -/
def span (h : Nat) : List Block → Nat
  | [] => 0
  | block :: rest => h + block.size + span h rest

/-- Header addresses of blocks laid out from `base`. -/
def addresses (h base : Nat) : List Block → List Nat
  | [] => []
  | block :: rest => base :: addresses h (base + h + block.size) rest

/-- Some block in use has its payload of `bytes` bytes at `payload`. -/
def InUse (h base : Nat) : List Block → Nat → Nat → Prop
  | [], _, _ => False
  | block :: rest, payload, bytes =>
    (block.inuse = true ∧ payload = base + h ∧ bytes = block.size) ∨
      InUse h (base + h + block.size) rest payload bytes

/-- No two neighbouring blocks are both free. -/
def Coalesced (blocks : List Block) : Prop :=
  blocks.IsChain (fun left right => left.inuse = true ∨ right.inuse = true)

/-- Put a free block in front, merging it with a free block that follows. -/
def pushFree (h bytes : Nat) : List Block → List Block
  | [] => [⟨bytes, false⟩]
  | block :: rest =>
    if block.inuse then ⟨bytes, false⟩ :: block :: rest
    else ⟨bytes + (block.size + h), false⟩ :: rest

/-- Shorten a block to `kept` bytes when more than a header remains. -/
def splitFront (h : Nat) (block : Block) (kept : Nat) (rest : List Block) : List Block :=
  if h < block.size - kept then ⟨kept, block.inuse⟩ :: pushFree h (block.size - kept - h) rest
  else block :: rest

/-- Payload bytes the front block has after `splitFront`. -/
def splitSize (h : Nat) (block : Block) (kept : Nat) : Nat :=
  if h < block.size - kept then kept else block.size

@[simp] theorem span_append : span h (front ++ rest) = span h front + span h rest := by
  induction front with
  | nil => simp [span]
  | cons block front ih => simp only [List.cons_append, span, ih]; omega

@[simp] theorem span_singleton : span h [block] = h + block.size := rfl

theorem length_le_span (blocks : List Block) (wide : 0 < h) : blocks.length ≤ span h blocks := by
  induction blocks with
  | nil => simp
  | cons block rest ih => simp only [List.length_cons, span]; omega

@[simp] theorem addresses_append :
    addresses h base (front ++ rest) =
      addresses h base front ++ addresses h (base + span h front) rest := by
  induction front generalizing base with
  | nil => simp [addresses, span]
  | cons block front ih =>
    simp only [List.cons_append, addresses, span, ih]
    rw [show base + h + block.size + span h front = base + (h + block.size + span h front) by omega]

theorem addresses_bounds (member : address ∈ addresses h base blocks) :
    base ≤ address ∧ address + h ≤ base + span h blocks := by
  induction blocks generalizing base with
  | nil => simp [addresses] at member
  | cons block rest ih =>
    simp only [addresses, List.mem_cons] at member
    simp only [span]
    rcases member with same | later
    · omega
    · have bounds := ih later
      omega

theorem addresses_pairwise (wide : 0 < h) (blocks : List Block) :
    (addresses h base blocks).Pairwise (· < ·) := by
  induction blocks generalizing base with
  | nil => exact .nil
  | cons block rest ih =>
    refine List.pairwise_cons.mpr ⟨fun address member => ?_, ih⟩
    have bounds := addresses_bounds member
    omega

@[simp] theorem inUse_append :
    InUse h base (front ++ rest) payload bytes ↔
      InUse h base front payload bytes ∨ InUse h (base + span h front) rest payload bytes := by
  induction front generalizing base with
  | nil => simp [InUse, span]
  | cons block front ih =>
    simp only [List.cons_append, InUse, span, ih, or_assoc]
    rw [show base + h + block.size + span h front = base + (h + block.size + span h front) by omega]

theorem inUse_bounds (used : InUse h base blocks payload bytes) :
    base + h ≤ payload ∧ payload + bytes ≤ base + span h blocks := by
  induction blocks generalizing base with
  | nil => exact used.elim
  | cons block rest ih =>
    simp only [span]
    rcases used with ⟨_, place, extent⟩ | later
    · omega
    · have bounds := ih later
      omega

theorem inUse_clear (used : InUse h base blocks payload bytes)
    (member : address ∈ addresses h base blocks) :
    payload + bytes ≤ address ∨ address + h ≤ payload := by
  induction blocks generalizing base with
  | nil => exact used.elim
  | cons block rest ih =>
    simp only [addresses, List.mem_cons] at member
    rcases used with ⟨_, place, extent⟩ | later
    · rcases member with same | other
      · omega
      · have bounds := addresses_bounds other
        omega
    · rcases member with same | other
      · have bounds := inUse_bounds later
        omega
      · exact ih later other

theorem inUse_disjoint (first : InUse h base blocks payload bytes)
    (second : InUse h base blocks other extent) (different : payload ≠ other) :
    payload + bytes ≤ other ∨ other + extent ≤ payload := by
  induction blocks generalizing base with
  | nil => exact first.elim
  | cons block rest ih =>
    rcases first with ⟨_, place, size⟩ | later
    · rcases second with ⟨_, same, _⟩ | elsewhere
      · omega
      · have bounds := inUse_bounds elsewhere
        omega
    · rcases second with ⟨_, place, size⟩ | elsewhere
      · have bounds := inUse_bounds later
        omega
      · exact ih later elsewhere

/-- The header in front of a payload in use belongs to a block of the list. -/
theorem InUse.focus (used : InUse h base blocks payload bytes) :
    ∃ front block rest, blocks = front ++ block :: rest ∧ block.inuse = true ∧
      payload = base + span h front + h ∧ bytes = block.size := by
  induction blocks generalizing base with
  | nil => exact used.elim
  | cons block rest ih =>
    rcases used with ⟨flag, place, size⟩ | later
    · exact ⟨[], block, rest, rfl, flag, by simpa [span] using place, size⟩
    · obtain ⟨front, found, tail, shape, flag, place, size⟩ := ih later
      refine ⟨block :: front, found, tail, by simp [shape], flag, ?_, size⟩
      simp only [span]
      omega

theorem mem_addresses_focus (member : address ∈ addresses h base blocks) :
    ∃ front block rest, blocks = front ++ block :: rest ∧ address = base + span h front := by
  induction blocks generalizing base with
  | nil => simp [addresses] at member
  | cons block rest ih =>
    simp only [addresses, List.mem_cons] at member
    rcases member with same | later
    · exact ⟨[], block, rest, rfl, by simpa [span] using same⟩
    · obtain ⟨front, found, tail, shape, place⟩ := ih later
      refine ⟨block :: front, found, tail, by simp [shape], ?_⟩
      simp only [span]
      omega

/-- A block in use separates what lies in front of it from what follows. -/
theorem coalesced_used (used : block.inuse = true) :
    Coalesced (front ++ block :: rest) ↔ Coalesced front ∧ Coalesced rest := by
  unfold Coalesced
  rw [List.isChain_append]
  constructor
  · intro ⟨left, right, _⟩
    exact ⟨left, right.tail⟩
  · intro ⟨left, right⟩
    refine ⟨left, ?_, ?_⟩
    · cases rest with
      | nil => exact List.isChain_singleton _
      | cons head tail => exact List.isChain_cons_cons.mpr ⟨.inl used, right⟩
    · intro x _ y head
      simp only [List.head?_cons, Option.mem_def, Option.some.injEq] at head
      exact .inr (head ▸ used)

theorem coalesced_cons_used (used : block.inuse = true) :
    Coalesced (block :: rest) ↔ Coalesced rest := by
  have split := @coalesced_used block [] rest used
  simpa [Coalesced] using split

theorem Coalesced.of_front (coalesced : Coalesced (front ++ rest)) : Coalesced front :=
  (List.isChain_append.mp coalesced).1

theorem Coalesced.of_rest (coalesced : Coalesced (front ++ rest)) : Coalesced rest :=
  (List.isChain_append.mp coalesced).2.1

/-- Only the flag of a block matters to what lies in front of it. -/
theorem Coalesced.reflag (coalesced : Coalesced (front ++ block :: rest))
    (same : other.inuse = block.inuse) (behind : Coalesced (other :: tail)) :
    Coalesced (front ++ other :: tail) := by
  obtain ⟨left, _, joint⟩ := List.isChain_append.mp coalesced
  refine List.isChain_append.mpr ⟨left, behind, fun x last y head => ?_⟩
  simp only [List.head?_cons, Option.mem_def, Option.some.injEq] at head
  rw [← head, same]
  exact joint x last block rfl

theorem Coalesced.next_used (coalesced : Coalesced (block :: next :: rest))
    (idle : block.inuse = false) : next.inuse = true := by
  have pair := (List.isChain_cons_cons.mp coalesced).1
  simpa [idle] using pair

theorem coalesced_pushFree (coalesced : Coalesced rest) : Coalesced (pushFree h bytes rest) := by
  cases rest with
  | nil => exact List.isChain_singleton _
  | cons next tail =>
    simp only [pushFree]
    by_cases used : next.inuse = true
    · rw [if_pos used]
      exact List.isChain_cons_cons.mpr ⟨.inr used, coalesced⟩
    · rw [if_neg used]
      cases tail with
      | nil => exact List.isChain_singleton _
      | cons after tail =>
        have flag := coalesced.next_used (by simpa using used)
        exact List.isChain_cons_cons.mpr ⟨.inr flag, coalesced.tail⟩

/-- With nothing in use, coalescing leaves a single block. -/
theorem coalesced_idle (coalesced : Coalesced (block :: rest))
    (idle : ∀ payload bytes, ¬ InUse h base (block :: rest) payload bytes) :
    rest = [] ∧ block.inuse = false := by
  have blockIdle : block.inuse = false := by
    by_contra used
    exact idle _ _ (.inl ⟨by simpa using used, rfl, rfl⟩)
  cases rest with
  | nil => exact ⟨rfl, blockIdle⟩
  | cons next tail =>
    have flag := coalesced.next_used blockIdle
    exact (idle _ _ (.inr (.inl ⟨flag, rfl, rfl⟩))).elim

theorem pushFree_cons (h bytes : Nat) (rest : List Block) :
    ∃ first tail, pushFree h bytes rest = first :: tail ∧ first.inuse = false := by
  cases rest with
  | nil => exact ⟨_, _, rfl, rfl⟩
  | cons next tail =>
    simp only [pushFree]
    split <;> exact ⟨_, _, rfl, rfl⟩

@[simp] theorem span_pushFree : span h (pushFree h bytes rest) = h + bytes + span h rest := by
  cases rest with
  | nil => simp [pushFree, span]
  | cons next tail =>
    simp only [pushFree]
    split <;> simp only [span]
    omega

theorem addresses_pushFree (member : address ∈ addresses h base (pushFree h bytes rest)) :
    address = base ∨ address ∈ addresses h (base + h + bytes) rest := by
  cases rest with
  | nil => simpa [pushFree, addresses] using member
  | cons next tail =>
    simp only [pushFree] at member
    split at member
    · simpa only [addresses, List.mem_cons] using member
    · simp only [addresses, List.mem_cons] at member ⊢
      rcases member with same | later
      · exact .inl same
      · right; right
        rwa [show base + h + bytes + h + next.size = base + h + (bytes + (next.size + h)) by omega]

@[simp] theorem inUse_pushFree :
    InUse h base (pushFree h bytes rest) payload extent ↔
      InUse h (base + h + bytes) rest payload extent := by
  cases rest with
  | nil => simp [pushFree, InUse]
  | cons next tail =>
    simp only [pushFree]
    split
    · simp [InUse]
    · rename_i idle
      simp only [InUse, idle, Bool.false_eq_true, false_and, false_or]
      rw [show base + h + (bytes + (next.size + h)) = base + h + bytes + h + next.size by omega]

/-- The front block keeps its flag, so a split list is never empty. -/
theorem splitFront_cons (h : Nat) (block : Block) (kept : Nat) (rest : List Block) :
    ∃ first tail, splitFront h block kept rest = first :: tail ∧ first.inuse = block.inuse := by
  unfold splitFront
  split
  · exact ⟨_, _, rfl, rfl⟩
  · exact ⟨block, rest, rfl, rfl⟩

theorem span_splitFront (room : kept ≤ block.size) :
    span h (splitFront h block kept rest) = span h (block :: rest) := by
  unfold splitFront
  split
  · simp only [span, span_pushFree]; omega
  · rfl

theorem addresses_splitFront (room : kept ≤ block.size)
    (member : address ∈ addresses h base (splitFront h block kept rest)) :
    address ∈ addresses h base (block :: rest) ∨ address = base + h + kept := by
  unfold splitFront at member
  split at member
  · rename_i enough
    simp only [addresses, List.mem_cons] at member ⊢
    rcases member with same | later
    · exact .inl (.inl same)
    · rcases addresses_pushFree later with same | after
      · exact .inr same
      · left; right
        rwa [show base + h + block.size = base + h + kept + h + (block.size - kept - h) by omega]
  · exact .inl member

theorem inUse_splitFront (room : kept ≤ block.size) (used : block.inuse = true) :
    InUse h base (splitFront h block kept rest) payload bytes ↔
      (payload = base + h ∧ bytes = splitSize h block kept) ∨
        InUse h (base + h + block.size) rest payload bytes := by
  unfold splitFront splitSize
  split
  · simp only [InUse, used, true_and, inUse_pushFree]
    rw [show base + h + kept + h + (block.size - kept - h) = base + h + block.size by omega]
  · simp only [InUse, used, true_and]

theorem coalesced_splitFront (used : block.inuse = true) (coalesced : Coalesced rest) :
    Coalesced (splitFront h block kept rest) := by
  unfold splitFront
  split
  · have keptUsed : (⟨kept, block.inuse⟩ : Block).inuse = true := used
    exact (coalesced_cons_used keptUsed).mpr (coalesced_pushFree coalesced)
  · exact (coalesced_cons_used used).mpr coalesced

theorem splitSize_bounds (room : kept ≤ block.size) :
    kept ≤ splitSize h block kept ∧ splitSize h block kept ≤ block.size := by
  unfold splitSize
  split <;> omega

end FlapjackOS.Tiling
