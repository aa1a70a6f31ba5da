import FlapjackOS.Common.String

/-! `MallocZone` over byte-addressed memory. A pointer is an address, zero being
the null pointer. `none` stands for a failed assertion, a null pointer that is
dereferenced, or a walk over the block list that does not end. -/

namespace FlapjackOS.Malloc

open Machine CString

/-- Every block starts on a multiple of this many bytes. -/
def align : Nat := 4

/-- `sizeof(MallocBlock)`: three words and a flag padded to a word. -/
def sizeofBlock (arch : Arch) : Nat := 4 * arch.wordBytes

/-- `sizeof(MallocZone)`: the pointer to the virtual table and `head_`. -/
def sizeofZone (arch : Arch) : Nat := 2 * arch.wordBytes

def minSplitSize (arch : Arch) : Nat := sizeofBlock arch

section
variable (arch : Arch) (memory : Memory) (block : Nat)

def prev : Nat := load memory block arch.wordBytes

def next : Nat := load memory (block + arch.wordBytes) arch.wordBytes

def size : Nat := load memory (block + 2 * arch.wordBytes) arch.wordBytes

def inuse : Bool := memory (block + 3 * arch.wordBytes) != 0

def setPrev (value : Nat) : Memory := store memory block arch.wordBytes value

def setNext (value : Nat) : Memory :=
  store memory (block + arch.wordBytes) arch.wordBytes value

def setSize (value : Nat) : Memory :=
  store memory (block + 2 * arch.wordBytes) arch.wordBytes value

def setInuse (value : Bool) : Memory :=
  storeByte memory (block + 3 * arch.wordBytes) value.toUInt8

/-- `zone->head_`, which follows the pointer to the virtual table. -/
def head (zone : Nat) : Nat := load memory (zone + arch.wordBytes) arch.wordBytes

def setHead (zone value : Nat) : Memory :=
  store memory (zone + arch.wordBytes) arch.wordBytes value

end

def roundUpBlockSize (arch : Arch) (size : Nat) : Nat :=
  let newSize := arch.add size (align - 1) / align * align
  if newSize < size then arch.sizeMax - 3 else newSize

section
variable (arch : Arch) (memory : Memory)

/-- Write the header of a block carved out of the end of `block` and link it
behind `block`, which keeps `blockSize` bytes. -/
def linkAfter (block newBlock newSize blockSize : Nat) : Memory :=
  let memory := setPrev arch memory newBlock block
  let memory := setNext arch memory newBlock (next arch memory block)
  let memory := setSize arch memory newBlock newSize
  let memory := setInuse arch memory newBlock false
  let memory := setSize arch memory block blockSize
  let memory := if next arch memory block ≠ 0
    then setPrev arch memory (next arch memory block) newBlock else memory
  setNext arch memory block newBlock

/-- Remove the block that follows `block` by extending `block` over it. The
removed block's successor is `after`. -/
def absorb (block removed after : Nat) : Memory :=
  let memory := setSize arch memory block
    (arch.add (size arch memory block) (arch.add (size arch memory removed) (sizeofBlock arch)))
  let memory := setNext arch memory block after
  if after ≠ 0 then setPrev arch memory after block else memory

/-- If the following block is free then it goes away and `block` expands to
fill the hole. -/
def mergeFollowing (block following : Nat) : Memory :=
  if following ≠ 0 ∧ inuse arch memory following = false then
    absorb arch memory block following (next arch memory following)
  else memory

def considerSplittingBlock (block blockSize : Nat) :
    Option Memory :=
  let remainingSpace := arch.sub (size arch memory block) blockSize
  if minSplitSize arch < remainingSpace then
    let newBlock := arch.add (arch.add block (sizeofBlock arch)) blockSize
    if newBlock % align = 0 then
      let memory := linkAfter arch memory block newBlock
        (arch.sub remainingSpace (sizeofBlock arch)) blockSize
      some (mergeFollowing arch memory newBlock (next arch memory newBlock))
    else none
  else some memory

/-- `MallocZone::create`. The compiler supplies the address of the virtual table. -/
def create (vtable start bytes : Nat) : Option (Memory × Nat) :=
  if start = 0 ∨ bytes ≤ sizeofZone arch then none
  else
    let zone := if start % 4 ≠ 0 then arch.add start (4 - start % 4) else start
    let memory := store memory zone arch.wordBytes vtable
    let memory := setHead arch memory zone 0
    let first := arch.add zone (sizeofZone arch)
    let memory := setHead arch memory zone first
    let memory := setPrev arch memory first 0
    let memory := setNext arch memory first 0
    let memory := setSize arch memory first
      (arch.sub (arch.sub bytes (sizeofZone arch)) (sizeofBlock arch))
    some (setInuse arch memory first false, zone)

/-- The loop `for (block = head_; block; block = block->next)`. -/
def walk (arch : Arch) (memory : Memory) (visit : β → Nat → β) : Nat → Nat → β → Option β
  | fuel, block, state =>
    if block = 0 then some state
    else match fuel with
      | 0 => none
      | fuel + 1 => walk arch memory visit fuel (next arch memory block) (visit state block)

/-- One round of the best-fit search. -/
def considerBlock (bytes : Nat) (suitable : Nat → Bool)
    (best block : Nat) : Nat :=
  if bytes ≤ size arch memory block ∧ suitable block = true ∧ inuse arch memory block = false ∧
      (best = 0 ∨ size arch memory block < size arch memory best) then block else best

def findBestFit (zone bytes : Nat) : Option Nat :=
  walk arch memory (considerBlock arch memory bytes (fun _ => true)) arch.modulus
    (head arch memory zone) 0

def findBestFitAligned (zone bytes alignment : Nat) : Option Nat :=
  walk arch memory
    (considerBlock arch memory bytes
      (fun block => arch.add block (sizeofBlock arch) % alignment == 0))
    arch.modulus (head arch memory zone) 0

/-- The heap walk of the debug build, looking for the block being returned. -/
def foundBlock (zone block : Nat) : Option Bool :=
  walk arch memory (fun found iter => found || iter == block) arch.modulus
    (head arch memory zone) false

def malloc (zone bytes : Nat) : Option (Memory × Nat) := do
  let bytes := roundUpBlockSize arch bytes
  let best ← findBestFit arch memory zone bytes
  if best = 0 then return (memory, 0)
  let memory ← considerSplittingBlock arch memory best bytes
  return (setInuse arch memory best true, arch.add best (sizeofBlock arch))

def memalign (zone bytes alignment : Nat) :
    Option (Memory × Nat) :=
  if alignment = 0 then malloc arch memory zone bytes
  else do
    let bytes := roundUpBlockSize arch bytes
    let best ← findBestFitAligned arch memory zone bytes alignment
    if best ≠ 0 then
      let memory ← considerSplittingBlock arch memory best bytes
      return (setInuse arch memory best true, arch.add best (sizeofBlock arch))
    let best ← findBestFit arch memory zone
      (arch.add (arch.add bytes (minSplitSize arch)) alignment)
    -- `best->size` is read without a null check
    if best = 0 then none
    let delta := arch.add (arch.add best (sizeofBlock arch)) (sizeofBlock arch) % alignment
    let requestBlock := arch.add (arch.add best (sizeofBlock arch)) (arch.sub alignment delta)
    let newSizeForBest := arch.sub (arch.sub requestBlock best) (sizeofBlock arch)
    let memory := linkAfter arch memory best requestBlock
      (arch.sub (arch.sub (size arch memory best) newSizeForBest) (sizeofBlock arch)) newSizeForBest
    let memory ← considerSplittingBlock arch memory requestBlock bytes
    let memory := setInuse arch memory requestBlock true
    let result := arch.add requestBlock (sizeofBlock arch)
    if result % alignment = 0 then return (memory, result) else none

def free (zone ptr : Nat) : Option Memory :=
  if ptr = 0 then some memory
  else do
    let block := arch.sub ptr (sizeofBlock arch)
    let found ← foundBlock arch memory zone block
    if found = false ∨ inuse arch memory block = false then none
    let memory := setInuse arch memory block false
    let preceding := prev arch memory block
    let following := next arch memory block
    let mergeLeft := preceding ≠ 0 ∧ inuse arch memory preceding = false
    let memory := if mergeLeft then absorb arch memory preceding block following else memory
    let block := if mergeLeft then preceding else block
    some (mergeFollowing arch memory block following)

/-- The last resort of `realloc`: merge into the free block in front. -/
def mergeIntoPreceding (ptr block preceding following newSize : Nat) :
    Option (Memory × Nat) := do
  let memory := setNext arch memory preceding following
  let memory := if following ≠ 0 then setPrev arch memory following preceding else memory
  let memory := setSize arch memory preceding
    (arch.add (arch.add (size arch memory block) (size arch memory preceding)) (sizeofBlock arch))
  let memory := setInuse arch memory preceding true
  let newAlloc := arch.add preceding (sizeofBlock arch)
  let memory ← memmove arch memory ptr newAlloc (size arch memory block)
  let memory ← considerSplittingBlock arch memory preceding newSize
  return (memory, newAlloc)

/-- `realloc` behind its assertions, with the requested size rounded up. -/
def resizeBlock (zone ptr block newSize : Nat) :
    Option (Memory × Nat) := do
  if newSize ≤ size arch memory block then
    let memory ← considerSplittingBlock arch memory block newSize
    return (memory, ptr)
  let following := next arch memory block
  if following ≠ 0 ∧ inuse arch memory following = false ∧
      newSize ≤ arch.add (arch.add (size arch memory block) (size arch memory following))
        (sizeofBlock arch) then
    let memory := absorb arch memory block following (next arch memory following)
    let memory ← considerSplittingBlock arch memory block newSize
    return (memory, ptr)
  let (memory, newAlloc) ← malloc arch memory zone newSize
  if newAlloc ≠ 0 then
    -- the destination is the old allocation, the source is the new one
    let memory := memcpy arch memory ptr newAlloc (size arch memory block)
    let memory ← free arch memory zone ptr
    return (memory, newAlloc)
  let preceding := prev arch memory block
  if preceding ≠ 0 ∧ inuse arch memory preceding = false ∧
      newSize ≤ arch.add (arch.add (size arch memory block) (size arch memory preceding))
        (sizeofBlock arch) then
    mergeIntoPreceding arch memory ptr block preceding following newSize
  else return (memory, 0)

def realloc (zone ptr newSize : Nat) : Option (Memory × Nat) :=
  if ptr = 0 then malloc arch memory zone newSize
  else do
    let block := arch.sub ptr (sizeofBlock arch)
    let found ← foundBlock arch memory zone block
    if inuse arch memory block = false ∨ found = false then none
    if newSize = 0 then
      let memory ← free arch memory zone ptr
      malloc arch memory zone 0
    else resizeBlock arch memory zone ptr block (roundUpBlockSize arch newSize)

end

end FlapjackOS.Malloc
