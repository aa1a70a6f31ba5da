import FlapjackOS.Boot.AddressSpace
import FlapjackOS.Paging.Readonly

namespace FlapjackOS.Boot

open Frames Function Paging KernelAddressSpaceBootstrapper

variable {arch : Arch} {frames : Nat}

/-- The first two steps of `prepare_kernel_address_space`, where the unmanaged memory map does
the mapping. -/
def mapKernelRegion (cr3 pageTables : Nat) (flags : ProtectionFlags) (state : State arch frames) :
    Option (State arch frames) := do
  let (_, words) ← prepareAddressSpace cr3 (construct arch pageTables) state.words
  (GenericUnmanagedPhysicalMemoryMap arch (unmanagedActions cr3)).mapPages { state with words := words }
    (kernelVirtualStart arch) (kernelVirtualStart arch + kernelMemoryRegionSize) flags

/-- A page of the kernel region. -/
structure RegionPage (arch : Arch) (page : Nat) : Prop where
  aligned : page % pageSize = 0
  above : kernelVirtualStart arch ≤ page
  below : page < kernelVirtualStart arch + kernelMemoryRegionSize

/-- The entries of the region that are set refer to page tables of their own, which are none of
the structures above them. -/
structure RegionTables (arch : Arch) (words : Words arch) (cr3 pageTables directory : Nat) : Prop
    extends KernelTables arch words cr3 pageTables directory where
  start : kernelVirtualStart arch < pageTables
  real : ∀ i, i < numberOfPageTables arch → ¬ Vacant words directory i →
    regionTable words directory i ≠ 0 ∧ regionTable words directory i ≠ directory ∧
    ∀ place ∈ directoryReads words cr3, place.1 ≠ regionTable words directory i
  own : ∀ i, i < numberOfPageTables arch → ∀ j, j < numberOfPageTables arch → i ≠ j →
    ¬ Vacant words directory i → ¬ Vacant words directory j →
    regionTable words directory i ≠ regionTable words directory j

/-- What `map_page` writes to the leaf entry of a page of the kernel's logical memory. -/
structure Encodes (flags : ProtectionFlags) (page : Nat) (data : Word arch) : Prop where
  address : frameAddress data = page - kernelVirtualStart arch
  writable : isReadwrite data = flags.writable
  present : isPresent data = (page - kernelVirtualStart arch != 0)

section

/-- The leaf entries of some pages: they lie in certain tables, no two of them are the same one,
and the resolver finds them whatever these tables contain. -/
structure Leaves (words : Words arch) (cr3 : Nat) (Page : Nat → Prop) (place : Nat → Nat × Nat)
    (Table : Nat → Prop) : Prop where
  found : ∀ changed : Words arch,
    (∀ table index, ¬ Table table → changed table index = words table index) →
    ∀ page, Page page → Resolver.getPageTableEntry changed cr3 page = some (place page)
  inside : ∀ page, Page page → Table (place page).1
  injective : ∀ page, Page page → ∀ other, Page other → place page = place other → page = other

variable {words : Words arch} {cr3 : Nat} {Page Table : Nat → Prop} {place : Nat → Nat × Nat}
  {state : State arch frames}

theorem words_setWord_of_ne {spot : Nat × Nat} {data : Word arch} (different : (table, index) ≠ spot) :
    (state.setWord spot.1 spot.2 data).words table index = state.words table index := by
  simp only [State.setWord, update_apply]
  by_cases sameTable : table = spot.1
  · have otherIndex : index ≠ spot.2 := fun sameIndex => different (Prod.ext sameTable sameIndex)
    simp [sameTable, otherIndex]
  · simp [sameTable]

theorem unmanaged_fill (flags : ProtectionFlags) (aligned : page % pageSize = 0)
    (above : kernelVirtualStart arch ≤ page) (below : page < arch.modulus)
    (found : Resolver.getPageTableEntry state.words cr3 page = some spot) :
    ∃ data, (unmanagedActions cr3).fill flags state page = some (state.setWord spot.1 spot.2 data) ∧
      Encodes flags page data := by
  have start := kernelVirtualStart_aligned arch
  have last := kernelVirtualStart_add arch
  have physical : (page - kernelVirtualStart arch) % pageSize = 0 := by
    simp only [pageSize] at aligned start ⊢
    omega
  obtain ⟨data, result, _, address⟩ := setFrameAddress_aligned (state.words spot.1 spot.2) physical
  refine ⟨setSupervisor (setGlobal (setReadwrite (setPresent data (page - kernelVirtualStart arch != 0))
    flags.writable) flags.global) flags.supervisor, ?_, ?_, by simp, by simp⟩
  · simp [unmanagedActions, convertLogicalToPhysicalAddress, above, unmanagedMapPage, found, result]
  simp only [setSupervisor, setGlobal, setReadwrite, setPresent]
  rw [frameAddress_setFlag (by decide), frameAddress_setFlag (by decide), frameAddress_setFlag (by decide),
    frameAddress_setFlag (by decide), address (representable_of_lt (by omega))]

/-- The loop over pages of kernel memory gives each of them its entry and leaves the entries of
the others alone. By induction on the pages that are left; what carries it is that only tables
of leaf entries have changed, so that the resolver still finds all leaf entries. -/
theorem Leaves.run (leaves : Leaves words cr3 Page place Table) (flags : ProtectionFlags)
    (kernel : ∀ page, Page page →
      page % pageSize = 0 ∧ kernelVirtualStart arch ≤ page ∧ page < arch.modulus)
    (rest : List Nat) (pages : ∀ page ∈ rest, Page page)
    (same : ∀ table index, ¬ Table table → state.words table index = words table index) :
    ∃ after, Runs.run ((unmanagedActions cr3).fill flags) state rest = some after ∧
      (∀ table index, ¬ Table table → after.words table index = words table index) ∧
      (∀ page ∈ rest, Encodes flags page (after.words (place page).1 (place page).2)) ∧
      ∀ page, Page page → page ∉ rest →
        after.words (place page).1 (place page).2 = state.words (place page).1 (place page).2 := by
  induction rest generalizing state with
  | nil => exact ⟨state, rfl, same, by simp, by simp⟩
  | cons page rest ih =>
    have here := pages page List.mem_cons_self
    obtain ⟨aligned, above, below⟩ := kernel page here
    obtain ⟨data, filled, encodes⟩ := unmanaged_fill flags aligned above below
      (leaves.found state.words same page here)
    have kept : ∀ table index, ¬ Table table →
        (state.setWord (place page).1 (place page).2 data).words table index = words table index := by
      intro table index outside
      rw [words_setWord_of_ne, same table index outside]
      intro equal
      have inside := leaves.inside page here
      rw [← equal] at inside
      exact outside inside
    obtain ⟨after, ran, fixed, written, untouched⟩ :=
      ih (fun other member => pages other (List.mem_cons_of_mem _ member)) kept
    refine ⟨after, by simp [Runs.run, filled, ran], fixed, ?_, ?_⟩
    · intro other member
      by_cases later : other ∈ rest
      · exact written other later
      · -- the entry of the first page is written once
        obtain rfl : other = page := (List.mem_cons.mp member).resolve_right later
        rw [untouched other here later]
        simpa [State.setWord] using encodes
    · intro other another absent
      have different : place other ≠ place page := by
        intro equal
        have equalPages := leaves.injective other another page here equal
        exact absent (equalPages ▸ List.mem_cons_self)
      rw [untouched other another (fun later => absent (List.mem_cons_of_mem _ later)),
        words_setWord_of_ne different]

end

theorem locate_eq (arch : Arch) (linearAddress : Nat) :
    (locate arch linearAddress).root :: (locate arch linearAddress).path =
      directoryPath arch linearAddress ++ [directoryIndex arch linearAddress] := by
  cases arch <;> rfl

/-- The number of a page in the region. -/
def pageNumber (arch : Arch) (page : Nat) : Nat := (page - kernelVirtualStart arch) / pageSize

/-- Where the entry of a page of the region is: its page tables follow each other, and in a page
table the entries of its pages do. -/
theorem RegionPage.locate (inside : RegionPage arch page) :
    pageNumber arch page / pageTableCount arch < numberOfPageTables arch ∧
    directoryPath arch page = directoryPath arch (kernelVirtualStart arch) ∧
    directoryIndex arch page = firstEntry arch + pageNumber arch page / pageTableCount arch ∧
    (Paging.locate arch page).leaf = pageNumber arch page % pageTableCount arch := by
  obtain ⟨aligned, above, below⟩ := inside
  have mask10 (n : Nat) : n &&& 0x3FF = n % 1024 := Nat.and_two_pow_sub_one_eq_mod n 10
  have mask9 (n : Nat) : n &&& 0x1FF = n % 512 := Nat.and_two_pow_sub_one_eq_mod n 9
  cases arch <;>
    simp only [pageNumber, numberOfPageTables, firstEntry, directoryPath, directoryIndex, Paging.locate, pageTableCount,
      kernelVirtualStart, kernelMemoryRegionSize, I386.getIndexOfPml2EntryByAddress,
      I386.getIndexOfPml1EntryByAddress, X86_64.getIndexOfPml4EntryByAddress, X86_64.getIndexOfPml3EntryByAddress,
      X86_64.getIndexOfPml2EntryByAddress, X86_64.getIndexOfPml1EntryByAddress, mask10, mask9,
      Nat.shiftRight_eq_div_pow, pageSize, List.cons.injEq, and_true, true_and] at aligned above below ⊢ <;>
    omega

theorem pageNumber_injective (first : RegionPage arch page) (second : RegionPage arch other)
    (same : pageNumber arch page = pageNumber arch other) : page = other := by
  have start := kernelVirtualStart_aligned arch
  obtain ⟨alignedFirst, aboveFirst, _⟩ := first
  obtain ⟨alignedSecond, aboveSecond, _⟩ := second
  simp only [pageNumber, pageSize] at *
  omega

section
variable {words : Words arch} {cr3 pageTables directory : Nat}

/-- The page table of each entry of the region once the address space is prepared. -/
def preparedTable (words : Words arch) (pageTables directory i : Nat) : Nat :=
  regionTable (preparedWords words pageTables directory (numberOfPageTables arch)) directory i

/-- The leaf entry of a page of the region. -/
def regionLeaf (words : Words arch) (pageTables directory page : Nat) : Nat × Nat :=
  (preparedTable words pageTables directory (pageNumber arch page / pageTableCount arch),
    pageNumber arch page % pageTableCount arch)

/-- The page tables of the region. -/
def IsRegionTable (words : Words arch) (pageTables directory table : Nat) : Prop :=
  ∃ i, i < numberOfPageTables arch ∧ preparedTable words pageTables directory i = table

section
variable (held : RegionTables arch words cr3 pageTables directory)
  (inside : i < numberOfPageTables arch)
include held inside

/-- The page tables of the region are none of the structures above them. -/
theorem RegionTables.table_apart :
    preparedTable words pageTables directory i ≠ 0 ∧ preparedTable words pageTables directory i ≠ directory ∧
    ∀ place ∈ directoryReads words cr3,
      place.1 ≠ preparedTable words pageTables directory i := by
  have kernel := held.toKernelTables
  by_cases vacant : Vacant words directory i
  · have own := tableFor_mem words pageTables directory inside
    rw [preparedTable, kernel.table_of_vacant inside vacant]
    refine ⟨?_, fun equal => held.apart (equal ▸ own), fun place member equal => ?_⟩
    · have above := (kernel.own_bounds own).1
      have positive : 0 < kernelVirtualStart arch := by cases arch <;> decide
      omega
    · exact held.way place member (equal ▸ own)
  · rw [preparedTable, kernel.table_of_taken vacant]
    exact held.real i inside vacant

theorem RegionTables.tables_injective (other : j < numberOfPageTables arch)
    (same : preparedTable words pageTables directory i = preparedTable words pageTables directory j) :
    i = j := by
  have kernel := held.toKernelTables
  by_contra different
  by_cases first : Vacant words directory i
  · exact kernel.table_ne inside other different first same
  · by_cases second : Vacant words directory j
    · exact kernel.table_ne other inside (Ne.symm different) second same.symm
    · rw [preparedTable, preparedTable, kernel.table_of_taken first, kernel.table_of_taken second] at same
      exact held.own i inside j other different first second same

/-- Every entry of the region has a table address after the preparation. -/
theorem RegionTables.address_ne_zero :
    getTableAddress (preparedWords words pageTables directory (numberOfPageTables arch) directory
      (firstEntry arch + i)) ≠ 0 := by
  have kernel := held.toKernelTables
  by_cases vacant : Vacant words directory i
  · have start := held.start
    have low : pageTables ≤ tableFor words pageTables directory i := Nat.le_add_right ..
    rw [kernel.final_vacant inside vacant,
      (kernel.referTo_own (tableFor_mem words pageTables directory inside) _).1]
    omega
  · rw [kernel.final_taken vacant]
    exact vacant

end

/-- The resolver comes to the page tables of the region whatever they contain. -/
theorem RegionTables.leaves (held : RegionTables arch words cr3 pageTables directory) :
    Leaves (preparedWords words pageTables directory (numberOfPageTables arch)) cr3 (RegionPage arch)
      (regionLeaf words pageTables directory) (IsRegionTable words pageTables directory) where
  found changed same page inside := by
    obtain ⟨entry, path, index, leaf⟩ := inside.locate
    have way : resolve changed (convertPhysicalToLogicalAddress arch cr3)
        (directoryPath arch (kernelVirtualStart arch)) = some directory := by
      rw [← held.found]
      apply resolve_eq_of_reads
      intro place member
      rw [same place.1 place.2, held.toKernelTables.way_unchanged le_rfl member]
      rintro ⟨i, bound, table⟩
      exact (held.table_apart bound).2.2 place member table.symm
    have kept : changed directory
          (firstEntry arch + pageNumber arch page / pageTableCount arch) =
        preparedWords words pageTables directory (numberOfPageTables arch) directory
          (firstEntry arch + pageNumber arch page / pageTableCount arch) := by
      apply same
      rintro ⟨i, bound, table⟩
      exact (held.table_apart bound).2.1 table
    have reached : resolve changed directory
          [firstEntry arch + pageNumber arch page / pageTableCount arch] =
        some (preparedTable words pageTables directory (pageNumber arch page / pageTableCount arch)) := by
      simp only [resolve, kept, resolve_ne_zero held.found, held.address_ne_zero entry, if_false]
      exact if_neg (held.table_apart entry).1
    rw [Resolver.getPageTableEntry, locate_eq, path, index, resolve_append, way, Option.bind_some, reached,
      leaf]
    rfl
  inside page inside := ⟨_, inside.locate.1, rfl⟩
  injective page inside other another same := by
    obtain ⟨table, index⟩ := Prod.mk.inj same
    have tables := held.tables_injective inside.locate.1 another.locate.1 table
    apply pageNumber_injective inside another
    rw [← Nat.div_add_mod (pageNumber arch page) (pageTableCount arch), tables, index, Nat.div_add_mod]

theorem RegionPage.kernel (inside : RegionPage arch page) :
    page % pageSize = 0 ∧ kernelVirtualStart arch ≤ page ∧ page < arch.modulus :=
  ⟨inside.aligned, inside.above, inside.below.trans (region_fits arch)⟩

/-- The loop of `map_pages` comes to the pages of the region. -/
theorem mem_visitedPages_region (arch : Arch) (page : Nat) :
    page ∈ visitedPages (kernelVirtualStart arch) (kernelVirtualStart arch + kernelMemoryRegionSize) ↔
      RegionPage arch page := by
  rw [mem_visitedPages, kernelVirtualStart_aligned]
  constructor
  · rintro ⟨above, below, aligned⟩
    exact ⟨aligned, above, below⟩
  · rintro ⟨aligned, above, below⟩
    exact ⟨above, below, aligned⟩

/-- Both calls return, and every page of the region has the leaf entry that `map_page` writes. -/
theorem RegionTables.mapKernelRegion_encodes {state : State arch frames}
    (held : RegionTables arch state.words cr3 pageTables directory) (flags : ProtectionFlags) :
    ∃ after, mapKernelRegion cr3 pageTables flags state = some after ∧
      ∀ page, RegionPage arch page → ∃ data,
        leafEntry after.words (resolverLeaf cr3 after) page = some data ∧ Encodes flags page data := by
  have ordered : kernelVirtualStart arch < kernelVirtualStart arch + kernelMemoryRegionSize :=
    Nat.lt_add_of_pos_right (by decide)
  have terminates :
      Terminates arch (kernelVirtualStart arch) (kernelVirtualStart arch + kernelMemoryRegionSize) := by
    cases arch <;> decide
  let prepared : State arch frames := { state with
    words := preparedWords state.words pageTables directory (numberOfPageTables arch) }
  obtain ⟨after, ran, fixed, written, _⟩ := @Leaves.run arch frames _ cr3 _ _ _ prepared held.leaves flags
    (fun _ inside => inside.kernel) (visitedPages (kernelVirtualStart arch) _)
    (fun page member => (mem_visitedPages_region arch page).mp member) (fun _ _ _ => rfl)
  refine ⟨after, ?_, fun page inside => ?_⟩
  · rw [mapKernelRegion, held.prepareAddressSpace_eq, Option.bind_eq_bind, Option.bind_some, ← ran]
    change (GenericUnmanagedPhysicalMemoryMap arch (unmanagedActions cr3)).mapPages prepared _ _ flags = _
    simp only [GenericUnmanagedPhysicalMemoryMap]
    rw [if_pos ordered, forPages_eq (ordered.trans (region_fits arch)), if_pos terminates]
  · have found := held.leaves.found after.words fixed page inside
    refine ⟨_, ?_, written page ((mem_visitedPages_region arch page).mpr inside)⟩
    rw [leafEntry, resolverLeaf, found, Option.map_some]

end

/-- The page has a present and writable leaf entry for its place in physical memory. -/
def FullyMapped (cr3 : Nat) (state : State arch frames) (page : Nat) : Prop :=
  ∃ data, leafEntry state.words (resolverLeaf cr3 state) page = some data ∧ isPresent data = true ∧
    frameAddress data = page - kernelVirtualStart arch ∧ isReadwrite data = true

/-- Both calls return, and of the pages of the region all but the first are mapped: `map_page` takes
the physical address zero to say that there is no page. -/
theorem kernel_region_mapped_iff (arch : Arch) (frames : Nat) (state : State arch frames)
    (cr3 pageTables directory : Nat) (flags : ProtectionFlags)
    (held : RegionTables arch state.words cr3 pageTables directory) (writable : flags.writable = true) :
    ∃ after, mapKernelRegion cr3 pageTables flags state = some after ∧
      ∀ page, RegionPage arch page → (FullyMapped cr3 after page ↔ page ≠ kernelVirtualStart arch) := by
  obtain ⟨after, mapped, leaves⟩ := held.mapKernelRegion_encodes flags
  refine ⟨after, mapped, fun page inside => ?_⟩
  obtain ⟨data, leaf, encodes⟩ := leaves page inside
  have present : isPresent data = true ↔ page ≠ kernelVirtualStart arch := by
    have above := inside.above
    rw [encodes.present, bne_iff_ne]
    omega
  rw [← present]
  constructor
  · rintro ⟨other, same, mapped, _⟩
    rw [leaf] at same
    cases same
    exact mapped
  · intro mapped
    exact ⟨data, leaf, mapped, encodes.address, encodes.writable.trans writable⟩

/-- The structures of the loader, before anything else is set up. -/
def loaderState : State .x86_64 10 where
  words := loaderWords
  lower _ _ := none
  pageFrames _ _ := none
  supply := []
  allocator := .construct 10

theorem loaderState_tables :
    RegionTables .x86_64 loaderState.words 0x1000 0xFFFFFFFFC0010000 0xFFFFFFFFC0003000 where
  toKernelTables := loaderWords_tables
  start := by decide
  real := by decide
  own i inside j other different first second := by
    have only : ∀ i, i < numberOfPageTables .x86_64 → ¬ Vacant loaderState.words 0xFFFFFFFFC0003000 i →
        i = 3 := by decide
    exact absurd ((only i inside first).trans (only j other second).symm) different

theorem kernel_region_mapped_loader :
    RegionTables .x86_64 loaderState.words 0x1000 0xFFFFFFFFC0010000 0xFFFFFFFFC0003000 ∧
    ∃ after, mapKernelRegion 0x1000 0xFFFFFFFFC0010000 2 loaderState = some after ∧
      ∀ page, RegionPage .x86_64 page →
        (FullyMapped 0x1000 after page ↔ page ≠ kernelVirtualStart .x86_64) :=
  ⟨loaderState_tables, kernel_region_mapped_iff .x86_64 10 loaderState 0x1000 0xFFFFFFFFC0010000 _ 2
    loaderState_tables (by decide)⟩

/-- The first page of the kernel region is left without a present entry. -/
theorem first_page_not_present :
    RegionPage .x86_64 0xFFFFFFFFC0000000 ∧
    ∃ after, mapKernelRegion 0x1000 0xFFFFFFFFC0010000 2 loaderState = some after ∧
      (leafEntry after.words (resolverLeaf 0x1000 after) 0xFFFFFFFFC0000000).map isPresent = some false := by
  have inside : RegionPage .x86_64 0xFFFFFFFFC0000000 := ⟨by decide, by decide, by decide⟩
  obtain ⟨after, mapped, leaves⟩ := loaderState_tables.mapKernelRegion_encodes 2
  obtain ⟨data, leaf, encodes⟩ := leaves _ inside
  refine ⟨inside, after, mapped, ?_⟩
  rw [leaf, Option.map_some, encodes.present]
  rfl

end FlapjackOS.Boot
