import FlapjackOS.Boot.Configuration
import FlapjackOS.Common.String
import FlapjackOS.Machine.Window
import FlapjackOS.Paging.Dispatch

/-! The ELF parsers, loaders and the loader factory. `none` stands for a failed assertion, a loop
that does not end, a read outside the module, or a write outside the range mapped last. -/

namespace FlapjackOS.Elf

open Frames Machine Paging

/-- There is a parser and a loader for each class of object files. -/
inductive Class where
  | elf32
  | elf64
  deriving DecidableEq, Repr

/-- A member of a header, by its place in the structure. -/
structure Field where
  offset : Nat
  width : Nat
  deriving DecidableEq, Repr

namespace Class

/-- `sizeof(Elf32_Ehdr)`, `sizeof(Elf64_Ehdr)` -/
def ehdrSize : Class → Nat
  | elf32 => 52
  | elf64 => 64

/-- `sizeof(Elf32_Phdr)`, `sizeof(Elf64_Phdr)` -/
def phdrSize : Class → Nat
  | elf32 => 32
  | elf64 => 56

/-- The size of an address, and of the sizes and offsets of segments. -/
def addressWidth : Class → Nat
  | elf32 => 4
  | elf64 => 8

variable (cls : Class)

def eEntry : Field := ⟨24, cls.addressWidth⟩

def ePhoff : Field := ⟨24 + cls.addressWidth, cls.addressWidth⟩

def eFlags : Field := ⟨24 + 3 * cls.addressWidth, 4⟩

def eEhsize : Field := ⟨28 + 3 * cls.addressWidth, 2⟩

def ePhentsize : Field := ⟨30 + 3 * cls.addressWidth, 2⟩

def ePhnum : Field := ⟨32 + 3 * cls.addressWidth, 2⟩

-- `p_flags` comes late in the program headers of one class and early in those of the other.
def pOffset : Class → Field
  | elf32 => ⟨4, 4⟩
  | elf64 => ⟨8, 8⟩

def pVaddr : Class → Field
  | elf32 => ⟨8, 4⟩
  | elf64 => ⟨16, 8⟩

def pFilesz : Class → Field
  | elf32 => ⟨16, 4⟩
  | elf64 => ⟨32, 8⟩

def pMemsz : Class → Field
  | elf32 => ⟨20, 4⟩
  | elf64 => ⟨40, 8⟩

def pFlags : Class → Field
  | elf32 => ⟨24, 4⟩
  | elf64 => ⟨4, 4⟩

end Class

def eIdent (index : Nat) : Field := ⟨index, 1⟩

def eType : Field := ⟨16, 2⟩

def eMachine : Field := ⟨18, 2⟩

def eVersion : Field := ⟨20, 4⟩

def pType : Field := ⟨0, 4⟩

/-- `PT_LOAD` -/
def ptLoad : Nat := 1

/-- A module in the memory that the kernel sees at a fixed distance. -/
structure Image (arch : Arch) extends Boot.Module where
  ordered : modStart ≤ modEnd
  placed : modEnd + kernelVirtualStart arch ≤ arch.modulus

/-- The extent of the module. -/
def Image.window (image : Image arch) : Window where
  start := image.modStart + kernelVirtualStart arch
  finish := image.modEnd + kernelVirtualStart arch

structure Data where
  length : Nat
  bytes : Nat
  deriving DecidableEq, Repr

/-- The extent of the data. -/
def Data.window (data : Data) : Window := ⟨data.bytes, data.bytes + data.length⟩

theorem Data.holds_window_iff {data : Data} :
    data.window.Holds x ↔ data.bytes ≤ x ∧ x < data.bytes + data.length :=
  Iff.rfl

/-- `Kernel::get_module_data` -/
def getModuleData (arch : Arch) (given : Boot.Module) : Data where
  length := arch.add (arch.sub (convertPhysicalToLogicalAddress arch given.modEnd)
    (convertPhysicalToLogicalAddress arch given.modStart)) 1
  bytes := convertPhysicalToLogicalAddress arch given.modStart

/-- An assertion, or the permission for an access to memory. -/
def ensure (condition : Prop) [Decidable condition] : Option Unit :=
  if condition then some () else none

/-- The value of a member of a structure at an address. -/
def word (arch : Arch) (memory : Memory) (address : Nat) (field : Field) : Nat :=
  load memory (arch.add address field.offset) field.width

section
variable (arch : Arch) (readable : Window) (memory : Memory)

/-- The member of the structure at an address, which has to be readable. -/
def fetch (address : Nat) (field : Field) : Option Nat :=
  if readable.Covers arch.modulus (arch.add address field.offset) field.width then
    some (word arch memory address field)
  else none

/-- `Parser32`, `Parser64` -/
structure Parser where
  cls : Class
  count : Nat
  data : Nat

def createParser (cls : Class) (data : Data) : Option Parser := do
  ensure (cls.ehdrSize < data.length)
  ensure (data.bytes ≠ 0)
  return { cls, count := data.length, data := data.bytes }

namespace Parser
variable (parser : Parser)

/-- `header().field` -/
def header (field : Field) : Option Nat := fetch arch readable memory parser.data field

/-- Comparisons joined by `&&`. -/
def satisfies : List (Field × Nat) → Option Bool
  | [] => some true
  | (field, expected) :: rest => do
    let value ← parser.header arch readable memory field
    if value = expected then satisfies rest else some false

def getProgramHeaders : Option Nat := do
  let size ← parser.header arch readable memory parser.cls.ePhentsize
  ensure (size = parser.cls.phdrSize)
  let offset ← parser.header arch readable memory parser.cls.ePhoff
  return arch.add parser.data offset

/-- `get_program_header`: the address of the header. -/
def getProgramHeader (index : Nat) : Option Nat := do
  let number ← parser.header arch readable memory parser.cls.ePhnum
  ensure (index < number)
  let size ← parser.header arch readable memory parser.cls.ePhentsize
  ensure (size = parser.cls.phdrSize)
  let programHeaders ← parser.getProgramHeaders arch readable memory
  return arch.add programHeaders (index * parser.cls.phdrSize)

end Parser

def hasExpectedMagic : List (Field × Nat) :=
  [(eIdent 0, 0x7f), (eIdent 1, 'E'.toNat), (eIdent 2, 'L'.toNat), (eIdent 3, 'F'.toNat)]

def isHeaderSizeValid (cls : Class) : List (Field × Nat) := [(cls.eEhsize, cls.ehdrSize)]

def isVersionValid : List (Field × Nat) := [(eVersion, 1), (eIdent 6, 1)]

/-- `Parser32::is_ia32` -/
def isIa32 : List (Field × Nat) :=
  hasExpectedMagic ++ isHeaderSizeValid .elf32 ++ isVersionValid ++
    [(eIdent 4, 1), (eIdent 5, 1), (eMachine, 3), (Class.elf32.eFlags, 0)]

/-- `Parser64::is_ia32e` -/
def isIa32e : List (Field × Nat) :=
  hasExpectedMagic ++ isHeaderSizeValid .elf64 ++ isVersionValid ++
    [(eIdent 4, 2), (eIdent 5, 1), (eMachine, 62)]

def isExecutable : List (Field × Nat) := [(eType, 2)]

/-- What `can_exec` asks of the header. -/
def requirements : Class → List (Field × Nat)
  | .elf32 => isIa32 ++ isExecutable
  | .elf64 => isIa32e ++ isExecutable

def canExec (cls : Class) (data : Data) : Option Bool := do
  let parser ← createParser cls data
  parser.satisfies arch readable memory (requirements cls)

/-- `ElfLoaderFactory::create_loader`; the inner `none` is an `ElfLoaderException`. -/
def createLoader (data : Data) : Option (Option Class) := do
  if ← canExec arch readable memory .elf32 data then return some .elf32
  else if ← canExec arch readable memory .elf64 data then return some .elf64
  else return none

end

/-- What `map_pages` makes writable: the bytes asked for, or the pages they are on. -/
inductive Measure where
  | bytes
  | pages
  deriving DecidableEq, Repr

def Measure.reach : Measure → Nat → Nat
  | bytes, limit => limit
  | pages, limit => (limit + (pageSize - 1)) / pageSize * pageSize

/-- The memory, the state of the memory map, and what is writable since the last call of
`map_pages`. Mapping a page does not change what the memory holds. -/
structure LoadState (σ : Type) where
  memory : Memory
  pages : σ
  writable : Window

/-- `header.p_vaddr + header.p_memsz`, in the type of the members and then as a `uintptr_t`. -/
def segmentLimit (arch : Arch) (cls : Class) (vaddr memsz : Nat) : Nat :=
  wordAdd (256 ^ cls.addressWidth) vaddr memsz % arch.modulus

/-- The flags for a segment with these `p_flags`: `WRITABLE` if `PF_W` is among them. -/
def getProtectionFlags (flags : Nat) : ProtectionFlags := if flags.testBit 1 then 2#32 else 0#32

/-- The members of a loader, with the memory it may read and what a call of `map_pages` makes
writable for it. -/
structure ElfLoaderBase (arch : Arch) (σ : Type) where
  cls : Class
  physicalMemoryMap : PhysicalMemoryMap σ
  image : Data
  readable : Window
  measure : Measure

namespace ElfLoaderBase
variable (loader : ElfLoaderBase arch σ)

/-- `map_pages(header.p_vaddr, header.p_vaddr + header.p_memsz, flags)` -/
def mapSegment (header : Nat) (flags : ProtectionFlags) (state : LoadState σ) : Option (LoadState σ) := do
  let vaddr ← fetch arch loader.readable state.memory header loader.cls.pVaddr
  let memsz ← fetch arch loader.readable state.memory header loader.cls.pMemsz
  let pages ← loader.physicalMemoryMap.mapPages state.pages (vaddr % arch.modulus)
    (segmentLimit arch loader.cls vaddr memsz) flags
  return { state with
    pages
    writable := ⟨vaddr % arch.modulus, loader.measure.reach (segmentLimit arch loader.cls vaddr memsz)⟩ }

section
variable (header : Nat) (state : LoadState σ)

def clearSegment : Option (LoadState σ) := do
  let vaddr ← fetch arch loader.readable state.memory header loader.cls.pVaddr
  let memsz ← fetch arch loader.readable state.memory header loader.cls.pMemsz
  ensure (state.writable.Covers arch.modulus (vaddr % arch.modulus) (memsz % arch.modulus))
  return { state with
    memory := CString.memset arch state.memory (vaddr % arch.modulus) 0 (memsz % arch.modulus) }

def copySegment : Option (LoadState σ) := do
  let vaddr ← fetch arch loader.readable state.memory header loader.cls.pVaddr
  let offset ← fetch arch loader.readable state.memory header loader.cls.pOffset
  let filesz ← fetch arch loader.readable state.memory header loader.cls.pFilesz
  ensure (loader.readable.Covers arch.modulus (arch.add loader.image.bytes offset) (filesz % arch.modulus))
  ensure (state.writable.Covers arch.modulus (vaddr % arch.modulus) (filesz % arch.modulus))
  return { state with
    memory := CString.memcpy arch state.memory (vaddr % arch.modulus) (arch.add loader.image.bytes offset)
      (filesz % arch.modulus) }

-- The header is a reference into the image, and is read again for each call.
def actionLoad : Option (LoadState σ) := do
  let state ← loader.mapSegment header 10#32 state
  let state ← loader.clearSegment header state
  let state ← loader.copySegment header state
  let flags ← fetch arch loader.readable state.memory header loader.cls.pFlags
  loader.mapSegment header (getProtectionFlags flags) state

def processProgramHeader : Option (LoadState σ) := do
  let type ← fetch arch loader.readable state.memory header pType
  if type = ptLoad then loader.actionLoad header state else some state

end

/-- The loop of `enumerate`, with the number of headers that are left. -/
def enumerate (parser : Parser) : Nat → Nat → LoadState σ → Option (LoadState σ)
  | 0, _, state => some state
  | left + 1, i, state => do
    let header ← parser.getProgramHeader arch loader.readable state.memory i
    let state ← loader.processProgramHeader header state
    enumerate parser left (i + 1) state

/-- The start address. -/
def load (state : LoadState σ) : Option (Nat × LoadState σ) := do
  let executable ← canExec arch loader.readable state.memory loader.cls loader.image
  ensure (executable = true)
  let parser ← createParser loader.cls loader.image
  let number ← parser.header arch loader.readable state.memory loader.cls.ePhnum
  let state ← loader.enumerate parser number 0 state
  let start ← parser.header arch loader.readable state.memory loader.cls.eEntry
  return (start % arch.modulus, state)

/-- The loader for a module, over the memory map that the kernel has. -/
@[simps]
def ofModule (given : Image arch) (actions : SubMap → PageActions σ) (measure : Measure) (cls : Class) :
    ElfLoaderBase arch σ where
  cls
  physicalMemoryMap := {
    mapPages := (concreteMap arch actions).mapPages arch
    mapPage := (concreteMap arch actions).mapPage arch
    setReadonly := (concreteMap arch actions).setReadonly arch }
  image := getModuleData arch given.toModule
  readable := given.window
  measure

end ElfLoaderBase

end FlapjackOS.Elf
