import FlapjackOS.Boot.Configuration
import FlapjackOS.Paging.Dispatch

/-! `GenericKernelAddressSpaceBootstrapper`, which provides page tables for the kernel's part of
the address space before there is a heap to take them from. -/

namespace FlapjackOS.Boot

open Frames Function Paging

variable {arch : Arch}

/-- `PageTable::COUNT`. -/
def pageTableCount : Arch → Nat
  | .i386 => 1024
  | .x86_64 => 512

/-- The bytes that one page table governs, `STEP` of the resolvers. -/
def directoryStep : Arch → Nat
  | .i386 => 0x400000
  | .x86_64 => 0x200000

def numberOfPageTables (arch : Arch) : Nat := kernelMemoryRegionSize / pageSize / pageTableCount arch

/-- The entries that lead to the page directory of an address. The resolver's index functions
compute the same as the controllers'. -/
def directoryPath (arch : Arch) (linearAddress : Nat) : List Nat :=
  match arch with
  | .i386 => []
  | .x86_64 => [X86_64.getIndexOfPml4EntryByAddress linearAddress,
      X86_64.getIndexOfPml3EntryByAddress linearAddress]

def directoryIndex (arch : Arch) (linearAddress : Nat) : Nat :=
  match arch with
  | .i386 => I386.getIndexOfPml2EntryByAddress linearAddress
  | .x86_64 => X86_64.getIndexOfPml2EntryByAddress linearAddress

/-- The first entry of the kernel region in its page directory. -/
def firstEntry (arch : Arch) : Nat := directoryIndex arch (kernelVirtualStart arch)

/-- `get_page_directory_entry` behind `get_page_directory`: the page directory and the index of
the entry, or `none` for the null pointer. -/
def getPageDirectoryEntry (words : Words arch) (cr3 linearAddress : Nat) : Option (Nat × Nat) :=
  (resolve words (convertPhysicalToLogicalAddress arch cr3) (directoryPath arch linearAddress)).map
    (·, directoryIndex arch linearAddress)

/-- The loop of `enumerate_page_directory_entries`. A remaining length that is not positive ends
it, so that it does not matter how far below zero the subtraction goes. -/
def enumerateEntries {σ : Type} (arch : Arch) (entry : σ → Nat → Option (Nat × Nat))
    (fn : σ → Nat × Nat → Option σ) : Nat → Nat → Nat → σ → Option σ
  | fuel, linearAddress, remainingLength, state =>
    if 0 < remainingLength then
      match fuel with
      | 0 => none
      | fuel + 1 => do
        let pde ← entry state linearAddress
        let state ← fn state pde
        enumerateEntries arch entry fn fuel (arch.add linearAddress (directoryStep arch))
          (remainingLength - directoryStep arch) state
    else some state

theorem enumerateEntries_done {σ : Type} (entry : σ → Nat → Option (Nat × Nat))
    (fn : σ → Nat × Nat → Option σ) (fuel linearAddress : Nat) (state : σ) :
    enumerateEntries arch entry fn fuel linearAddress 0 state = some state := by
  cases fuel <;> simp [enumerateEntries]

/-- `INT_MAX`. -/
def intMax : Nat := 2 ^ 31 - 1

def enumeratePageDirectoryEntries {σ : Type} (arch : Arch) (entry : σ → Nat → Option (Nat × Nat))
    (fn : σ → Nat × Nat → Option σ) (linearAddress length : Nat) (state : σ) : Option σ :=
  if length < intMax then enumerateEntries arch entry fn length linearAddress length state else none

/-- `pageTables` is the address of the tables that the bootstrapper owns. -/
structure KernelAddressSpaceBootstrapper where
  pageTables : Nat
  count : Nat
  nextPageTable : Nat
  deriving DecidableEq, Repr

/-- A bootstrapper and the contents of the paging structures. -/
abbrev Tables (arch : Arch) := KernelAddressSpaceBootstrapper × (Words arch)

namespace KernelAddressSpaceBootstrapper

def construct (arch : Arch) (pageTables : Nat) : KernelAddressSpaceBootstrapper where
  pageTables := pageTables
  count := numberOfPageTables arch
  nextPageTable := pageTables

/-- The addresses of the tables in `page_tables_`. -/
def ownTables (arch : Arch) (pageTables : Nat) : List Nat :=
  (List.range (numberOfPageTables arch)).map fun k => pageTables + k * pageSize

def getNextPageTable (bootstrapper : KernelAddressSpaceBootstrapper) :
    Option (KernelAddressSpaceBootstrapper × Nat) :=
  if bootstrapper.count = 0 then none
  else some ({ bootstrapper with
    nextPageTable := bootstrapper.nextPageTable + pageSize
    count := bootstrapper.count - 1 }, bootstrapper.nextPageTable)

def preparePageDirectoryEntry (tables : Tables arch) (pde : Nat × Nat) : Option (Tables arch) :=
  let (bootstrapper, words) := tables
  if getTableAddress (words pde.1 pde.2) = 0 then do
    let (bootstrapper, pageTable) ← bootstrapper.getNextPageTable
    let physicalAddress ← convertLogicalToPhysicalAddress arch pageTable
    let entry := setTableAddress (words pde.1 pde.2) physicalAddress
    let entry := setReadwrite entry true
    let entry := setPresent entry true
    return (bootstrapper, update words pde.1 (update (words pde.1) pde.2 entry))
  else some tables

/-- `memset` over `page_tables_`. -/
def clearPageTables (pageTables : Nat) (words : Words arch) : Words arch :=
  fun table => if table ∈ ownTables arch pageTables then fun _ => 0 else words table

def prepareAddressSpace (cr3 : Nat) (bootstrapper : KernelAddressSpaceBootstrapper)
    (words : Words arch) : Option (Tables arch) :=
  enumeratePageDirectoryEntries arch (fun tables => getPageDirectoryEntry tables.2 cr3)
    preparePageDirectoryEntry (kernelVirtualStart arch) kernelMemoryRegionSize
    (bootstrapper, clearPageTables bootstrapper.pageTables words)

end KernelAddressSpaceBootstrapper

open KernelAddressSpaceBootstrapper

/-- The entries on the way to the page directory of the region. -/
abbrev directoryReads (words : Words arch) (cr3 : Nat) : List (Nat × Nat) :=
  resolveReads words (convertPhysicalToLogicalAddress arch cr3) (directoryPath arch (kernelVirtualStart arch))

/-- The bootstrapper's tables are in the kernel's part of the address space. The resolver finds
the page directory of the region, the structures on the way to it are none of these tables, and
no entry of the region refers to one of them. -/
structure KernelTables (arch : Arch) (words : Words arch) (cr3 pageTables directory : Nat) :
    Prop where
  aligned : pageTables % pageSize = 0
  above : kernelVirtualStart arch ≤ pageTables
  fits : pageTables + numberOfPageTables arch * pageSize ≤ arch.modulus
  found : resolve words (convertPhysicalToLogicalAddress arch cr3)
    (directoryPath arch (kernelVirtualStart arch)) = some directory
  apart : directory ∉ ownTables arch pageTables
  way : ∀ place ∈ directoryReads words cr3, place.1 ∉ ownTables arch pageTables
  foreign : ∀ i, i < numberOfPageTables arch → getTableAddress (words directory (firstEntry arch + i)) ≠ 0 →
    convertPhysicalToLogicalAddress arch (getTableAddress (words directory (firstEntry arch + i))) ∉
      ownTables arch pageTables

/-- Entries that refer to a table are left alone. The others refer to tables of the bootstrapper,
each to one of its own, and nothing else has changed. -/
structure Prepared (arch : Arch) (before after : Words arch) (pageTables directory : Nat) :
    Prop where
  kept : ∀ i, i < numberOfPageTables arch → getTableAddress (before directory (firstEntry arch + i)) ≠ 0 →
    after directory (firstEntry arch + i) = before directory (firstEntry arch + i)
  given : ∀ i, i < numberOfPageTables arch → getTableAddress (before directory (firstEntry arch + i)) = 0 →
    isPresent (after directory (firstEntry arch + i)) = true ∧
    isReadwrite (after directory (firstEntry arch + i)) = true ∧
    convertPhysicalToLogicalAddress arch (getTableAddress (after directory (firstEntry arch + i))) ∈
      ownTables arch pageTables
  zeroed : ∀ table ∈ ownTables arch pageTables, ∀ index, after table index = 0
  distinct : ∀ i, i < numberOfPageTables arch → ∀ j, j < numberOfPageTables arch → i ≠ j →
    getTableAddress (before directory (firstEntry arch + i)) = 0 →
    getTableAddress (after directory (firstEntry arch + i)) ≠
      getTableAddress (after directory (firstEntry arch + j))
  outside : ∀ table index, table ∉ ownTables arch pageTables →
    (table = directory → index < firstEntry arch ∨ firstEntry arch + numberOfPageTables arch ≤ index) →
    after table index = before table index

/-- All entries of the region are in one page directory, one behind the other. -/
theorem region_entry (arch : Arch) : ∀ i, i < numberOfPageTables arch →
    directoryPath arch (kernelVirtualStart arch + i * directoryStep arch) =
        directoryPath arch (kernelVirtualStart arch) ∧
      directoryIndex arch (kernelVirtualStart arch + i * directoryStep arch) = firstEntry arch + i := by
  cases arch <;> decide

theorem region_length (arch : Arch) : kernelMemoryRegionSize = numberOfPageTables arch * directoryStep arch := by
  cases arch <;> decide

theorem region_fits (arch : Arch) : kernelVirtualStart arch + kernelMemoryRegionSize < arch.modulus := by
  cases arch <;> decide

theorem kernelVirtualStart_add (arch : Arch) : kernelVirtualStart arch + 2 ^ 30 = arch.modulus := by
  cases arch <;> decide

theorem kernelVirtualStart_aligned (arch : Arch) : kernelVirtualStart arch % pageSize = 0 := by
  cases arch <;> decide

theorem directoryStep_pos (arch : Arch) : 0 < directoryStep arch := by
  cases arch <;> decide

section
variable {words : Words arch} {cr3 pageTables directory : Nat}

/-- The entry of the region refers to no page table yet. -/
def Vacant (words : Words arch) (directory i : Nat) : Prop :=
  getTableAddress (words directory (firstEntry arch + i)) = 0

instance : DecidablePred (Vacant words directory) := fun _ => inferInstanceAs (Decidable (_ = _))

/-- The table that a vacant entry gets: tables are given out in the order of the entries. -/
def tableFor (words : Words arch) (pageTables directory i : Nat) : Nat :=
  pageTables + Nat.count (Vacant words directory) i * pageSize

def referTo (word : Word arch) (table : Nat) : Word arch :=
  setPresent (setReadwrite (setTableAddress word (table - kernelVirtualStart arch)) true) true

/-- The paging structures once the first `n` entries of the region have been prepared. -/
def preparedWords (words : Words arch) (pageTables directory n : Nat) : Words arch :=
  fun table index =>
    if table ∈ ownTables arch pageTables then 0
    else if table = directory ∧ firstEntry arch ≤ index ∧ index < firstEntry arch + n ∧
        Vacant words directory (index - firstEntry arch) then
      referTo (words table index) (tableFor words pageTables directory (index - firstEntry arch))
    else words table index

/-- The bootstrapper at that time. -/
def preparedState (words : Words arch) (pageTables directory n : Nat) : Tables arch :=
  (⟨pageTables, numberOfPageTables arch - Nat.count (Vacant words directory) n,
    tableFor words pageTables directory n⟩, preparedWords words pageTables directory n)

theorem mem_ownTables : table ∈ ownTables arch pageTables ↔
    ∃ k, k < numberOfPageTables arch ∧ pageTables + k * pageSize = table := by
  simp [ownTables]

theorem tableFor_mem (words : Words arch) (pageTables directory : Nat)
    (inside : i < numberOfPageTables arch) :
    tableFor words pageTables directory i ∈ ownTables arch pageTables :=
  mem_ownTables.mpr ⟨_, Nat.lt_of_le_of_lt (Nat.count_le ..) inside, rfl⟩

section
variable (held : KernelTables arch words cr3 pageTables directory)
include held

theorem KernelTables.own_bounds (member : table ∈ ownTables arch pageTables) :
    kernelVirtualStart arch ≤ table ∧ table < arch.modulus ∧
      (table - kernelVirtualStart arch) % pageSize = 0 := by
  obtain ⟨k, inside, rfl⟩ := mem_ownTables.mp member
  have aligned := held.aligned
  have above := held.above
  have fits := held.fits
  have start := kernelVirtualStart_aligned arch
  simp only [pageSize] at aligned fits start ⊢
  omega

/-- The entry holds the address of the table, which the resolver converts back. -/
theorem KernelTables.referTo_own (member : table ∈ ownTables arch pageTables) (word : Word arch) :
    getTableAddress (referTo word table) = table - kernelVirtualStart arch ∧
      convertPhysicalToLogicalAddress arch (getTableAddress (referTo word table)) = table := by
  obtain ⟨above, below, aligned⟩ := held.own_bounds member
  have start := kernelVirtualStart_add arch
  have bounded : table - kernelVirtualStart arch < 2 ^ 30 := by omega
  have address : getTableAddress (referTo word table) = table - kernelVirtualStart arch := by
    rw [referTo, setPresent, getTableAddress_setFlag (by decide), setReadwrite,
      getTableAddress_setFlag (by decide), getTableAddress_setTableAddress aligned (representable_of_lt bounded)]
  refine ⟨address, ?_⟩
  have whole : table - kernelVirtualStart arch + kernelVirtualStart arch = table := Nat.sub_add_cancel above
  rw [address, convertPhysicalToLogicalAddress, Arch.add_of_lt (by omega), whole]

theorem preparedWords_region (i n : Nat) :
    preparedWords words pageTables directory n directory (firstEntry arch + i) =
      if i < n ∧ Vacant words directory i then
        referTo (words directory (firstEntry arch + i)) (tableFor words pageTables directory i)
      else words directory (firstEntry arch + i) := by
  rw [preparedWords, if_neg held.apart]
  simp

/-- What stands on the way to the page directory is never changed. -/
theorem KernelTables.way_unchanged (inside : n ≤ numberOfPageTables arch)
    (member : place ∈ directoryReads words cr3) :
    preparedWords words pageTables directory n place.1 place.2 = words place.1 place.2 := by
  have region : ∀ index ∈ directoryPath arch (kernelVirtualStart arch),
      firstEntry arch + numberOfPageTables arch ≤ index := by cases arch <;> decide
  have beyond := region _ (index_of_reads member)
  rw [preparedWords, if_neg (held.way place member), if_neg]
  rintro ⟨_, _, below, _⟩
  omega

theorem KernelTables.entry (inside : n < numberOfPageTables arch) :
    getPageDirectoryEntry (preparedWords words pageTables directory n) cr3
        (kernelVirtualStart arch + n * directoryStep arch) = some (directory, firstEntry arch + n) := by
  obtain ⟨path, index⟩ := region_entry arch n inside
  have same : resolve (preparedWords words pageTables directory n)
        (convertPhysicalToLogicalAddress arch cr3) (directoryPath arch (kernelVirtualStart arch)) =
      some directory := by
    rw [← held.found]
    apply resolve_eq_of_reads
    intro place member
    rw [held.way_unchanged inside.le member]
  rw [getPageDirectoryEntry, path, index, same]
  rfl

theorem preparedWords_of_vacant (vacant : Vacant words directory n) :
    update (preparedWords words pageTables directory n) directory
        (update (preparedWords words pageTables directory n directory) (firstEntry arch + n)
          (referTo (words directory (firstEntry arch + n)) (tableFor words pageTables directory n))) =
      preparedWords words pageTables directory (n + 1) := by
  funext table index
  by_cases here : table = directory
  · subst here
    rw [update_self]
    by_cases last : index = firstEntry arch + n
    · subst last
      rw [update_self, preparedWords_region held, if_pos ⟨Nat.lt_succ_self n, vacant⟩]
    · have same : index < firstEntry arch + (n + 1) ↔ index < firstEntry arch + n := by omega
      rw [update_of_ne last]
      simp only [preparedWords, same]
  · rw [update_of_ne here]
    simp only [preparedWords, here, false_and]

end

theorem preparedWords_of_taken (taken : ¬ Vacant words directory n) :
    preparedWords words pageTables directory (n + 1) = preparedWords words pageTables directory n := by
  funext table index
  by_cases last : index = firstEntry arch + n
  · subst last
    simp [preparedWords, taken]
  · have same : index < firstEntry arch + (n + 1) ↔ index < firstEntry arch + n := by omega
    simp only [preparedWords, same]

theorem clearPageTables_eq (words : Words arch) (pageTables directory : Nat) :
    (construct arch pageTables, clearPageTables pageTables words) =
      preparedState words pageTables directory 0 := by
  have cleared : clearPageTables pageTables words = preparedWords words pageTables directory 0 := by
    funext table index
    have none : ¬ (firstEntry arch ≤ index ∧ index < firstEntry arch + 0) := by omega
    rw [preparedWords, if_neg (fun taken : _ ∧ _ => none ⟨taken.2.1, taken.2.2.1⟩)]
    by_cases own : table ∈ ownTables arch pageTables <;> simp [clearPageTables, own]
  rw [cleared, preparedState, tableFor, Nat.count_zero, Nat.zero_mul]
  rfl

section
variable (held : KernelTables arch words cr3 pageTables directory)
include held

/-- One round of the enumeration. Not more tables have been given out than there were entries
before this one, so that one is left. -/
theorem KernelTables.prepare (inside : n < numberOfPageTables arch) :
    preparePageDirectoryEntry (preparedState words pageTables directory n) (directory, firstEntry arch + n) =
      some (preparedState words pageTables directory (n + 1)) := by
  have entry := preparedWords_region held n n
  rw [if_neg (by simp)] at entry
  by_cases vacant : Vacant words directory n
  · have used : Nat.count (Vacant words directory) n ≤ n := Nat.count_le ..
    have left : numberOfPageTables arch - Nat.count (Vacant words directory) n ≠ 0 := by omega
    have above := (held.own_bounds (tableFor_mem words pageTables directory inside)).1
    have count : Nat.count (Vacant words directory) (n + 1) = Nat.count (Vacant words directory) n + 1 := by
      rw [Nat.count_succ, if_pos vacant]
    have next : tableFor words pageTables directory n + pageSize =
        tableFor words pageTables directory (n + 1) := by
      rw [tableFor, tableFor, count, Nat.succ_mul, Nat.add_assoc]
    have empty : getTableAddress (words directory (firstEntry arch + n)) = 0 := vacant
    simp only [preparePageDirectoryEntry, preparedState, entry, empty, if_true, getNextPageTable, left,
      if_false, convertLogicalToPhysicalAddress, above, Option.bind_eq_bind, Option.bind_some, next]
    rw [count, Nat.sub_add_eq, ← preparedWords_of_vacant held vacant]
    rfl
  · have count : Nat.count (Vacant words directory) (n + 1) = Nat.count (Vacant words directory) n := by
      rw [Nat.count_succ, if_neg vacant, Nat.add_zero]
    have taken : ¬ getTableAddress (words directory (firstEntry arch + n)) = 0 := vacant
    simp only [preparePageDirectoryEntry, preparedState, entry, taken, if_false]
    rw [tableFor, tableFor, count, preparedWords_of_taken vacant]

/-- The rest of the enumeration, by induction on the entries that are left. -/
theorem KernelTables.enumerate (rest : n + m = numberOfPageTables arch) (enough : m ≤ fuel) :
    enumerateEntries arch (fun tables : Tables arch => getPageDirectoryEntry tables.2 cr3)
        preparePageDirectoryEntry fuel (kernelVirtualStart arch + n * directoryStep arch)
        (m * directoryStep arch) (preparedState words pageTables directory n) =
      some (preparedState words pageTables directory (numberOfPageTables arch)) := by
  induction m generalizing n fuel with
  | zero =>
    rw [Nat.zero_mul, enumerateEntries_done, ← rest]
    rfl
  | succ m ih =>
    cases fuel with
    | zero => cases enough
    | succ fuel =>
      have inside : n < numberOfPageTables arch := by omega
      have more : 0 < (m + 1) * directoryStep arch := Nat.mul_pos (Nat.succ_pos m) (directoryStep_pos arch)
      have next : arch.add (kernelVirtualStart arch + n * directoryStep arch) (directoryStep arch) =
          kernelVirtualStart arch + (n + 1) * directoryStep arch := by
        have fits := region_fits arch
        rw [region_length arch] at fits
        have below : (n + 1) * directoryStep arch ≤ numberOfPageTables arch * directoryStep arch :=
          Nat.mul_le_mul_right _ inside
        have sum : (n + 1) * directoryStep arch = n * directoryStep arch + directoryStep arch :=
          Nat.succ_mul ..
        rw [Arch.add_of_lt (by omega), sum, Nat.add_assoc]
      have remaining : (m + 1) * directoryStep arch - directoryStep arch = m * directoryStep arch := by
        rw [Nat.succ_mul, Nat.add_sub_cancel]
      have entry : getPageDirectoryEntry (preparedState words pageTables directory n).2 cr3
          (kernelVirtualStart arch + n * directoryStep arch) = some (directory, firstEntry arch + n) :=
        held.entry inside
      rw [enumerateEntries, if_pos more]
      simp only [entry, Option.bind_eq_bind, Option.bind_some, held.prepare inside, next, remaining]
      exact ih (by omega) (by omega)

theorem KernelTables.prepareAddressSpace_eq :
    prepareAddressSpace cr3 (construct arch pageTables) words =
      some (preparedState words pageTables directory (numberOfPageTables arch)) := by
  have short : kernelMemoryRegionSize < intMax := by decide
  have enough : numberOfPageTables arch ≤ kernelMemoryRegionSize := by cases arch <;> decide
  have run := held.enumerate (Nat.zero_add _) enough
  rw [Nat.zero_mul, Nat.add_zero, ← region_length] at run
  rw [prepareAddressSpace, enumeratePageDirectoryEntries, if_pos short]
  exact (congrArg _ (clearPageTables_eq words pageTables directory)).trans run

theorem KernelTables.final_vacant (inside : i < numberOfPageTables arch)
    (vacant : Vacant words directory i) :
    preparedWords words pageTables directory (numberOfPageTables arch) directory (firstEntry arch + i) =
      referTo (words directory (firstEntry arch + i)) (tableFor words pageTables directory i) := by
  rw [preparedWords_region held, if_pos ⟨inside, vacant⟩]

theorem KernelTables.final_taken (taken : ¬ Vacant words directory i) :
    preparedWords words pageTables directory (numberOfPageTables arch) directory (firstEntry arch + i) =
      words directory (firstEntry arch + i) := by
  rw [preparedWords_region held, if_neg (fun both => taken both.2)]

end

/-- The page table that an entry of the region refers to. -/
def regionTable (words : Words arch) (directory i : Nat) : Nat :=
  convertPhysicalToLogicalAddress arch (getTableAddress (words directory (firstEntry arch + i)))

section
variable (held : KernelTables arch words cr3 pageTables directory)
include held

theorem KernelTables.table_of_vacant (inside : i < numberOfPageTables arch)
    (vacant : Vacant words directory i) :
    regionTable (preparedWords words pageTables directory (numberOfPageTables arch)) directory i =
      tableFor words pageTables directory i := by
  rw [regionTable, held.final_vacant inside vacant]
  exact (held.referTo_own (tableFor_mem words pageTables directory inside) _).2

theorem KernelTables.table_of_taken (taken : ¬ Vacant words directory i) :
    regionTable (preparedWords words pageTables directory (numberOfPageTables arch)) directory i =
      regionTable words directory i := by
  rw [regionTable, held.final_taken taken]
  rfl

theorem KernelTables.table_ne (inside : i < numberOfPageTables arch)
    (other : j < numberOfPageTables arch) (different : i ≠ j) (vacant : Vacant words directory i) :
    regionTable (preparedWords words pageTables directory (numberOfPageTables arch)) directory i ≠
      regionTable (preparedWords words pageTables directory (numberOfPageTables arch)) directory j := by
  intro same
  rw [held.table_of_vacant inside vacant] at same
  by_cases second : Vacant words directory j
  · rw [held.table_of_vacant other second] at same
    have counts : Nat.count (Vacant words directory) i = Nat.count (Vacant words directory) j := by
      simp only [tableFor, pageSize] at same
      omega
    exact different (Nat.count_injective vacant second counts)
  · -- the other entry has kept its table, which is not one of the bootstrapper's
    rw [held.table_of_taken second, regionTable] at same
    apply held.foreign j other second
    exact same ▸ tableFor_mem words pageTables directory inside

theorem KernelTables.prepared :
    Prepared arch words (preparedWords words pageTables directory (numberOfPageTables arch))
      pageTables directory where
  kept i _ taken := held.final_taken taken
  given i inside vacant := by
    have table := held.table_of_vacant inside vacant
    rw [regionTable] at table
    rw [table, held.final_vacant inside vacant]
    exact ⟨by simp [referTo], by simp [referTo], tableFor_mem words pageTables directory inside⟩
  zeroed table own index := by rw [preparedWords, if_pos own]
  distinct i inside j other different vacant same :=
    held.table_ne inside other different vacant (congrArg (convertPhysicalToLogicalAddress arch) same)
  outside table index foreign away := by
    rw [preparedWords, if_neg foreign, if_neg]
    rintro ⟨here, low, high, _⟩
    rcases away here with before | behind <;> omega

end

end

/-- A first call of `prepare_address_space` provides every entry of the kernel region with a
table and does not run out of them. -/
theorem address_space_prepared (arch : Arch) (words : Words arch) (cr3 pageTables directory : Nat)
    (held : KernelTables arch words cr3 pageTables directory) :
    ∃ bootstrapper after,
      prepareAddressSpace cr3 (construct arch pageTables) words = some (bootstrapper, after) ∧
        Prepared arch words after pageTables directory :=
  ⟨_, _, held.prepareAddressSpace_eq, held.prepared⟩

/-- The structures of the loader in the first pages of memory, with a table for the fourth entry
of the region. -/
def loaderWords (table index : Nat) : Word .x86_64 :=
  if table = 0xFFFFFFFFC0001000 ∧ index = 511 then 0x2003
  else if table = 0xFFFFFFFFC0002000 ∧ index = 511 then 0x3003
  else if table = 0xFFFFFFFFC0003000 ∧ index = 3 then 0x4003
  else 0

theorem loaderWords_tables :
    KernelTables .x86_64 loaderWords 0x1000 0xFFFFFFFFC0010000 0xFFFFFFFFC0003000 where
  aligned := by decide
  above := by decide
  fits := by decide
  found := by decide
  apart := by decide
  way := by decide
  foreign := by decide

theorem address_space_prepared_loader :
    KernelTables .x86_64 loaderWords 0x1000 0xFFFFFFFFC0010000 0xFFFFFFFFC0003000 ∧
    ∃ bootstrapper after,
      prepareAddressSpace 0x1000 (construct .x86_64 0xFFFFFFFFC0010000) loaderWords =
          some (bootstrapper, after) ∧
        Prepared .x86_64 loaderWords after 0xFFFFFFFFC0010000 0xFFFFFFFFC0003000 :=
  ⟨loaderWords_tables, address_space_prepared .x86_64 loaderWords 0x1000 _ _ loaderWords_tables⟩

end FlapjackOS.Boot
