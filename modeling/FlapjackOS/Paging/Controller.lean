import FlapjackOS.Paging.Entry

/-! The page map controllers together with the paging structures they own. A
controller is identified with the address of its paging structure. `none` stands for
a failed assertion or a null pointer that is dereferenced. -/

namespace FlapjackOS.Paging

open Frames Function

/-- `KERNEL_VIRTUAL_START_ADDR`. -/
def kernelVirtualStart : Arch → Nat
  | .i386 => 0xC0000000
  | .x86_64 => 0xFFFFFFFFC0000000

def convertPhysicalToLogicalAddress (arch : Arch) (physicalAddress : Nat) : Nat :=
  arch.add physicalAddress (kernelVirtualStart arch)

def convertLogicalToPhysicalAddress (arch : Arch) (logicalAddress : Nat) : Option Nat :=
  if kernelVirtualStart arch ≤ logicalAddress then some (logicalAddress - kernelVirtualStart arch)
  else none

/-- The entries that lead to a page: the one in the top level structure, those in the
structures between, and the one in the page table. -/
structure PageIndex where
  root : Nat
  path : List Nat
  leaf : Nat
  deriving DecidableEq, Repr

namespace I386

/-- A shift by 22 leaves ten bits of an address, as many as the directory has entries for. -/
def getIndexOfPml2EntryByAddress (linearAddress : Nat) : Nat := linearAddress >>> 22

def getIndexOfPml1EntryByAddress (linearAddress : Nat) : Nat := linearAddress >>> 12 &&& 0x3FF

end I386

namespace X86_64

def getIndexOfPml4EntryByAddress (linearAddress : Nat) : Nat := linearAddress >>> 39 &&& 0x1FF

def getIndexOfPml3EntryByAddress (linearAddress : Nat) : Nat := linearAddress >>> 30 &&& 0x1FF

def getIndexOfPml2EntryByAddress (linearAddress : Nat) : Nat := linearAddress >>> 21 &&& 0x1FF

def getIndexOfPml1EntryByAddress (linearAddress : Nat) : Nat := linearAddress >>> 12 &&& 0x1FF

end X86_64

def locate (arch : Arch) (linearAddress : Nat) : PageIndex :=
  match arch with
  | .i386 => {
      root := I386.getIndexOfPml2EntryByAddress linearAddress
      path := []
      leaf := I386.getIndexOfPml1EntryByAddress linearAddress }
  | .x86_64 => {
      root := X86_64.getIndexOfPml4EntryByAddress linearAddress
      path := [X86_64.getIndexOfPml3EntryByAddress linearAddress,
        X86_64.getIndexOfPml2EntryByAddress linearAddress]
      leaf := X86_64.getIndexOfPml1EntryByAddress linearAddress }

/-- `PageMapLevelOneController::Entry`: an entry of a page table and the page frame
it owns. -/
structure PageEntry (arch : Arch) where
  pte : Word arch
  pageFrame : Option PageFrameController

namespace PageEntry

variable {arch : Arch} {frames : Nat}

def isPresent (entry : PageEntry arch) : Bool := Paging.isPresent entry.pte

def setReadwrite (entry : PageEntry arch) (readwrite : Bool) : PageEntry arch :=
  { entry with pte := Paging.setReadwrite entry.pte readwrite }

def setProtection (entry : PageEntry arch) (flags : ProtectionFlags) : PageEntry arch :=
  let pte := setPresent entry.pte true
  let pte := Paging.setReadwrite pte flags.writable
  let pte := setSupervisor pte flags.supervisor
  { entry with pte := setGlobal pte flags.global }

section
variable (allocator : PageFrameAllocator frames) (entry : PageEntry arch)

/-- The assignment of the shared pointer destroys the controller the entry had. -/
def dropPageFrame :
    Option (PageFrameAllocator frames) :=
  match entry.pageFrame with
  | some controller => (controller.release arch allocator).map Prod.fst
  | none => some allocator

def setPageFrame (pageFrame : Option PageFrameController) :
    Option (PageFrameAllocator frames × PageEntry arch) := do
  let allocator ← entry.dropPageFrame allocator
  match pageFrame.filter (·.pageFrame ≠ 0) with
  | some controller =>
    let pte ← setFrameAddress entry.pte controller.pageFrame
    return (allocator, { pte := setPresent pte true, pageFrame })
  | none =>
    let pte ← setFrameAddress entry.pte 0
    return (allocator, { pte := setPresent pte false, pageFrame })

/-- `set_mapping` with the address of a page frame. -/
def setMappingTo (physicalAddress : Nat) (flags : ProtectionFlags) :
    Option (PageFrameAllocator frames × PageEntry arch) := do
  let (allocator, entry) ← entry.setPageFrame allocator (some (.ofPageFrame physicalAddress))
  return (allocator, entry.setProtection flags)

/-- `set_mapping` with the page frame allocator. -/
def setMappingFrom (flags : ProtectionFlags) : Option (PageFrameAllocator frames × PageEntry arch) := do
  let (allocator, controller) ← PageFrameController.ofAllocator arch allocator
  let (allocator, entry) ← entry.setPageFrame allocator (some controller)
  return (allocator, entry.setProtection flags)

end

end PageEntry

/-- `set_protection` of an entry above the page table. -/
def setTableProtection {arch : Arch} (data : Word arch) (flags : ProtectionFlags) : Word arch :=
  setSupervisor (setReadwrite data flags.writable) flags.supervisor

/-- The paging structures, the controllers, and the allocators behind them. -/
structure State (arch : Arch) (frames : Nat) where
  /-- The contents of each paging structure. -/
  words : Words arch
  /-- The controller that an entry of a controller owns. -/
  lower : Nat → Nat → Option Nat
  /-- The page frame that an entry of a page table's controller owns. -/
  pageFrames : Nat → Nat → Option PageFrameController
  /-- The addresses of the paging structures that `new` is going to return. -/
  supply : List Nat
  allocator : PageFrameAllocator frames

namespace State

variable {arch : Arch} {frames : Nat}

section
variable (state : State arch frames)

def setWord (table index : Nat) (word : Word arch) :
    State arch frames :=
  { state with words := update state.words table (update (state.words table) index word) }

def entry (table index : Nat) : PageEntry arch where
  pte := state.words table index
  pageFrame := state.pageFrames table index

def putEntry (table index : Nat) (entry : PageEntry arch) :
    State arch frames :=
  { state.setWord table index entry.pte with
    pageFrames := update state.pageFrames table
      (update (state.pageFrames table) index entry.pageFrame) }

/-- `create_pml1`, `create_pml2` and `create_pml3`: a paging structure of zeros and
its controller, whose entries are all null. -/
def create : Option (State arch frames × Nat) :=
  match state.supply with
  | [] => none
  | table :: supply => some ({ state with
      words := update state.words table (fun _ => 0)
      lower := update state.lower table (fun _ => none)
      pageFrames := update state.pageFrames table (fun _ => none)
      supply }, table)

/-- `set_pml1_unlocked`, `set_pml2_unlocked` and `set_pml3_unlocked` with a controller
that is not null. -/
def setLower (table index below : Nat) :
    Option (State arch frames) := do
  let state := { state with
    lower := update state.lower table (update (state.lower table) index (some below)) }
  let physicalAddress ← convertLogicalToPhysicalAddress arch below
  if physicalAddress ≠ 0 then
    let word := setTableAddress (state.words table index) physicalAddress
    return state.setWord table index (setPresent word true)
  else
    let word := setTableAddress (state.words table index) 0
    return state.setWord table index (setPresent word false)

end

/-- `Entry::populate` of the levels four, three and two, for the indexes at the own
level and at those below. The lower levels are only looked at when the own entry is null. -/
def populate (state : State arch frames) (table : Nat) : List Nat → Option (State arch frames)
  | [] => some state
  | index :: path =>
    match state.lower table index with
    | some _ => some state
    | none => do
      let (state, below) ← state.create
      let state ← state.setLower table index below
      state.populate below path

/-- Follow the controllers. -/
def descend (state : State arch frames) (table : Nat) : List Nat → Option Nat
  | [] => some table
  | index :: path => (state.lower table index).bind (fun below => state.descend below path)

end State

end FlapjackOS.Paging
