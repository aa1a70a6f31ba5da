import FlapjackOS.Malloc.Invariant

/-! What a debugger sees: the block list as it is read from memory by following
`next` from `head_` and `prev` from the last block. -/

namespace FlapjackOS.Malloc

open Machine Tiling

/-- The blocks found by following `next` from `head_`. -/
def visited (arch : Arch) (memory : Memory) (zone : Nat) : Option (List Nat) :=
  walk arch memory (fun seen block => seen ++ [block]) arch.modulus (head arch memory zone) []

/-- The blocks found by following `prev`, put in front of those seen before. -/
def walkBack (arch : Arch) (memory : Memory) : Nat → Nat → List Nat → Option (List Nat)
  | fuel, block, seen =>
    if block = 0 then some seen
    else match fuel with
      | 0 => none
      | fuel + 1 => walkBack arch memory fuel (prev arch memory block) (block :: seen)

/-- The block list of a zone set up over `bytes` bytes is well formed. -/
structure WellFormed (arch : Arch) (memory : Memory) (zone bytes : Nat) (headers : List Nat) : Prop where
  forward : visited arch memory zone = some headers
  backward : ∃ last, headers.getLast? = some last ∧
    walkBack arch memory arch.modulus last [] = some headers
  first : headers.head? = some (zone + sizeofZone arch)
  tiled : headers.IsChain (fun block next => next = block + sizeofBlock arch + size arch memory block)
  total : sizeofZone arch +
    (headers.map (fun block => sizeofBlock arch + size arch memory block)).sum = bytes
  aligned : ∀ block ∈ headers, block % 4 = 0
  coalesced : headers.IsChain (fun block next =>
    inuse arch memory block = true ∨ inuse arch memory next = true)

section
variable {arch : Arch} {memory : Memory} {before base : Nat} {blocks : List Block}

/-- Walking back over a chain ends at the block in front of it. -/
theorem walkBack_chain (chain : Chain arch memory before 0 base blocks) (positive : 0 < base) :
    walkBack arch memory (fuel + blocks.length) (lastHeader arch before base blocks) seen =
      walkBack arch memory fuel before (addresses (sizeofBlock arch) base blocks ++ seen) := by
  induction blocks generalizing before base fuel seen with
  | nil => rfl
  | cons block rest ih =>
    have inner := @ih base _ (fuel + 1) seen chain.2 (by omega)
    have count : fuel + (block :: rest).length = fuel + 1 + rest.length := by
      simp only [List.length_cons]
      omega
    rw [lastHeader, count, inner, walkBack, if_neg (by omega), chain.prev]
    rfl

theorem addresses_getLast (nonempty : blocks ≠ []) :
    (addresses (sizeofBlock arch) base blocks).getLast? = some (lastHeader arch before base blocks) := by
  induction blocks generalizing before base with
  | nil => exact absurd rfl nonempty
  | cons block rest ih =>
    cases rest with
    | nil => rfl
    | cons next tail => exact @ih base _ (List.cons_ne_nil next tail)

section
variable (chain : Chain arch memory before 0 base blocks)
include chain

theorem Chain.tiled :
    (addresses (sizeofBlock arch) base blocks).IsChain
      (fun block next => next = block + sizeofBlock arch + Malloc.size arch memory block) := by
  induction blocks generalizing before base with
  | nil => exact List.isChain_nil
  | cons block rest ih =>
    have later := ih chain.2
    cases rest with
    | nil => exact List.isChain_singleton _
    | cons next tail =>
      refine List.isChain_cons_cons.mpr ⟨?_, later⟩
      rw [chain.size]

theorem Chain.sum :
    ((addresses (sizeofBlock arch) base blocks).map
      (fun block => sizeofBlock arch + Malloc.size arch memory block)).sum =
        span (sizeofBlock arch) blocks := by
  induction blocks generalizing before base with
  | nil => rfl
  | cons block rest ih =>
    simp only [addresses, List.map_cons, List.sum_cons, span]
    rw [ih chain.2, chain.size]

theorem Chain.coalesced (coalesced : Coalesced blocks) :
    (addresses (sizeofBlock arch) base blocks).IsChain (fun block next =>
      Malloc.inuse arch memory block = true ∨ Malloc.inuse arch memory next = true) := by
  induction blocks generalizing before base with
  | nil => exact List.isChain_nil
  | cons block rest ih =>
    have later := ih chain.2 coalesced.tail
    cases rest with
    | nil => exact List.isChain_singleton _
    | cons next tail =>
      refine List.isChain_cons_cons.mpr ⟨?_, later⟩
      rw [chain.inuse, Chain.inuse chain.2]
      exact (List.isChain_cons_cons.mp coalesced).1

end

end

/-- The invariant is what a debugger checks. -/
theorem Represents.wellFormed (held : Represents arch memory zone (zone + bytes) blocks) :
    WellFormed arch memory zone bytes
      (addresses (sizeofBlock arch) (firstBlock arch zone) blocks) where
  forward := by
    simp [visited, held.walk, ← List.flatMap_def]
  backward := by
    refine ⟨lastHeader arch 0 (firstBlock arch zone) blocks, addresses_getLast held.nonempty, ?_⟩
    have short := length_le_span blocks (sizeofBlock_pos arch)
    have total := held.total
    have bounded := held.bounded
    obtain ⟨fuel, enough⟩ : ∃ fuel, arch.modulus = fuel + blocks.length :=
      ⟨arch.modulus - blocks.length, by omega⟩
    rw [enough, walkBack_chain held.chain held.first_pos, List.append_nil]
    unfold walkBack
    rw [if_pos rfl]
  first := by
    have some := held.nonempty
    cases blocks with
    | nil => exact (some rfl).elim
    | cons block rest => rfl
  tiled := held.chain.tiled
  total := by
    have total := held.total
    rw [held.chain.sum]
    simp only [firstBlock] at total
    omega
  aligned := held.aligned
  coalesced := held.chain.coalesced held.coalesced

end FlapjackOS.Malloc
