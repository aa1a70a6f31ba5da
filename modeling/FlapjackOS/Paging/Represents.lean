import FlapjackOS.Paging.Regions

/-! The controllers and paging structures represent an address space, and populating
an entry of the top level structure opens a region. -/

namespace FlapjackOS.Paging

open Frames Function

variable {arch : Arch} {frames : Nat} {state after : State arch frames}
  {table index below leaf root : Nat} {path tables rest : List Nat}

theorem KernelTable.physical (good : KernelTable arch below) :
    convertLogicalToPhysicalAddress arch below = some (below - kernelVirtualStart arch) ∧
      below - kernelVirtualStart arch ≠ 0 ∧
      (below - kernelVirtualStart arch) % pageSize = 0 ∧
      below - kernelVirtualStart arch < 2 ^ 30 := by
  obtain ⟨aligned, low, high⟩ := good
  refine ⟨if_pos low.le, by omega, ?_, ?_⟩
  · cases arch <;> simp only [kernelVirtualStart, pageSize] at aligned low ⊢ <;> omega
  · cases arch <;> simp only [kernelVirtualStart, Arch.modulus, Arch.wordBytes] at low high ⊢ <;> omega

theorem KernelTable.logical (good : KernelTable arch below) :
    convertPhysicalToLogicalAddress arch (below - kernelVirtualStart arch) = below := by
  have low := good.low
  have sum : below - kernelVirtualStart arch + kernelVirtualStart arch = below := by omega
  rw [convertPhysicalToLogicalAddress, Arch.add_of_lt (by rw [sum]; exact good.high), sum]

/-- What `set_pml1_unlocked` and its relatives do with a kernel address. -/
theorem setLower_linked (state : State arch frames) (table index : Nat)
    (good : KernelTable arch below) :
    ∃ after, state.setLower table index below = some after ∧ Link after table index below ∧
      isReadwrite (after.words table index) = isReadwrite (state.words table index) ∧
      (∀ other, other ≠ index → after.words table other = state.words table other ∧
        after.lower table other = state.lower table other) ∧
      (∀ t, t ≠ table → SameTable state after t) ∧
      after.pageFrames = state.pageFrames ∧ after.supply = state.supply ∧
      after.allocator = state.allocator := by
  obtain ⟨physical, nonzero, aligned, bounded⟩ := good.physical
  have result : state.setLower table index below =
      some ({ state with
        lower := update state.lower table (update (state.lower table) index (some below)) }.setWord
          table index (setPresent (setTableAddress (state.words table index)
            (below - kernelVirtualStart arch)) true)) := by
    simp [State.setLower, physical, nonzero]
  refine ⟨_, result, ⟨?_, ?_, ?_⟩, ?_, ?_, ?_, rfl, rfl, rfl⟩
  · simp [State.setWord]
  · simp [State.setWord]
  · have flag : presentBit < 12 := by decide
    simp only [State.setWord, update_self, setPresent]
    rw [getTableAddress_setFlag flag, getTableAddress_setTableAddress aligned (representable_of_lt bounded)]
  · simp [State.setWord]
  · intro other different
    simp [State.setWord, different]
  · intro t different
    exact ⟨by simp [State.setWord, different], by simp [State.setWord, different], rfl⟩

/-- The controller of a structure of zeros owns nothing. -/
structure Fresh (state : State arch frames) (table : Nat) : Prop where
  words : ∀ i, state.words table i = 0
  lower : ∀ i, state.lower table i = none
  pageFrames : ∀ i, state.pageFrames table i = none

theorem create_fresh (supply : state.supply = below :: rest) :
    ∃ after, state.create = some (after, below) ∧ Fresh after below ∧
      (∀ t, t ≠ below → SameTable state after t) ∧ after.supply = rest ∧
      after.allocator = state.allocator := by
  have result : state.create = some ({ state with
      words := update state.words below (fun _ => 0)
      lower := update state.lower below (fun _ => none)
      pageFrames := update state.pageFrames below (fun _ => none)
      supply := rest }, below) := by
    simp [State.create, supply]
  refine ⟨_, result, ⟨by simp, by simp, by simp⟩, ?_, rfl, rfl⟩
  · intro t different
    exact ⟨by simp [different], by simp [different], by simp [different]⟩

theorem Fresh.congr (fresh : Fresh state table) (same : SameTable state after table) :
    Fresh after table where
  words i := by rw [same.words, fresh.words]
  lower i := by rw [same.lower, fresh.lower]
  pageFrames i := by rw [same.pageFrames, fresh.pageFrames]

/-- The part of a state that populating an entry takes from the supply. -/
structure Grown (state after : State arch frames) (table : Nat) (tables : List Nat) : Prop where
  supply : state.supply = tables ++ after.supply
  same : ∀ t, t ≠ table → t ∉ tables → SameTable state after t
  allocator : after.allocator = state.allocator

/-- A null entry has been linked to a structure from the supply. -/
structure Linked (state after : State arch frames) (table index below : Nat) (tables : List Nat) :
    Prop where
  link : Link after table index below
  kept : isReadwrite (after.words table index) = isReadwrite (state.words table index)
  others : ∀ other, other ≠ index → after.words table other = state.words table other ∧
    after.lower table other = state.lower table other
  grown : Grown state after table (below :: tables)

/-- One round of `populate`. -/
theorem populate_round (path : List Nat) (null : state.lower table index = none)
    (nonempty : 0 < state.supply.length) (distinct : (table :: state.supply).Nodup)
    (good : ∀ t ∈ state.supply, KernelTable arch t) :
    ∃ after below, state.populate table (index :: path) = after.populate below path ∧
      Linked state after table index below [] ∧ Fresh after below := by
  obtain ⟨below, rest, supply⟩ := List.exists_cons_of_length_pos nonempty
  rw [supply] at distinct good
  have apart : table ≠ below := by
    intro same
    simp [same] at distinct
  obtain ⟨created, creates, blank, createdSame, createdSupply, createdAllocator⟩ :=
    create_fresh supply
  obtain ⟨linked, links, link, kept, others, linkedSame, _, linkedSupply, linkedAllocator⟩ :=
    setLower_linked created table index (good below List.mem_cons_self)
  have here := createdSame table apart
  refine ⟨linked, below, ?_, ⟨link, ?_, fun other different => ?_, ?_, fun t first second => ?_, ?_⟩,
    blank.congr (linkedSame below apart.symm)⟩
  · simp [State.populate, null, creates, links]
  · rw [kept, here.words]
  · rw [(others other different).1, (others other different).2, here.words, here.lower]
    exact ⟨rfl, rfl⟩
  · rw [supply, linkedSupply, createdSupply]
    rfl
  · exact (createdSame t (by simpa using second)).trans (linkedSame t first)
  · exact linkedAllocator.trans createdAllocator

/-- What is built below the new structure does not touch the link to it. -/
theorem Linked.extend {linked : State arch frames} (first : Linked state linked table index below [])
    (rest : Grown linked after below tables) (distinct : (table :: state.supply).Nodup) :
    Linked state after table index below tables := by
  have supply : state.supply = below :: tables ++ after.supply := by
    rw [first.grown.supply, rest.supply]
    rfl
  rw [supply] at distinct
  have untouched : SameTable linked after table := by
    refine rest.same table ?_ ?_
    · intro same
      simp [same] at distinct
    · intro member
      simp [member] at distinct
  refine ⟨first.link.congr ?_ ?_, ?_, fun other different => ?_, supply, fun t off out => ?_, ?_⟩
  · rw [untouched.words]
  · rw [untouched.lower]
  · rw [untouched.words, first.kept]
  · rw [untouched.words, untouched.lower]
    exact first.others other different
  · rw [List.mem_cons, not_or] at out
    exact (first.grown.same t off (by simpa using out.1)).trans (rest.same t out.1 out.2)
  · exact rest.allocator.trans first.grown.allocator

/-- Populating a null entry builds the whole chain below it, and its page table is blank. -/
theorem populate_null (null : state.lower table index = none)
    (enough : path.length < state.supply.length) (distinct : (table :: state.supply).Nodup)
    (good : ∀ t ∈ state.supply, KernelTable arch t) :
    ∃ after below tables readwrite leaf, state.populate table (index :: path) = some after ∧
      Linked state after table index below tables ∧
      Stem after below path tables readwrite leaf ∧ Fresh after leaf := by
  induction path generalizing state table index with
  | nil =>
    obtain ⟨linked, below, round, link, fresh⟩ := populate_round [] null enough distinct good
    exact ⟨linked, below, [], true, below, round, link, .leaf, fresh⟩
  | cons next path ih =>
    obtain ⟨linked, below, round, link, fresh⟩ :=
      populate_round (next :: path) null (Nat.zero_lt_of_lt enough) distinct good
    have supply : state.supply = below :: linked.supply := link.grown.supply
    have shorter : path.length < linked.supply.length := by
      simpa [supply] using enough
    have inner : (below :: linked.supply).Nodup := supply ▸ (List.nodup_cons.mp distinct).2
    have goodRest : ∀ t ∈ linked.supply, KernelTable arch t := by
      intro t member
      refine good t ?_
      rw [supply]
      exact List.mem_cons_of_mem _ member
    obtain ⟨after, lower, tables, readwrite, leaf, populated, linkedLower, stem, freshLeaf⟩ :=
      ih (fresh.lower next) shorter inner goodRest
    refine ⟨after, below, lower :: tables, _, leaf, round.trans populated,
      link.extend linkedLower.grown distinct, .link linkedLower.link (fun other different => ?_) stem,
      freshLeaf⟩
    rw [(linkedLower.others other different).1, (linkedLower.others other different).2]
    exact ⟨fresh.lower other, fresh.words other⟩

section
variable {pool : List Nat} {origin : Words arch} {place : Nat → List Nat}
  {space : Space arch frames} {region : Region arch}

/-- The addresses that `new` returns are kernel addresses, all different, and there
are enough of them for one chain below each entry of the top level structure. -/
structure Setup (arch : Arch) (root : Nat) (pool : List Nat) : Prop where
  tables : ∀ t ∈ pool, KernelTable arch t
  distinct : (root :: pool).Nodup
  enough : depth arch * entryCount arch ≤ pool.length

/-- The entries of the top level structure that do not open a region. -/
def Space.closedEntries (space : Space arch frames) : Finset Nat :=
  (Finset.range (entryCount arch)).filter (fun j => (space.regions j).isNone)

/-- The space with a new region. -/
def Space.openRegion (space : Space arch frames) (index : Nat) (path : List Nat)
    (readwrite : Bool) : Space arch frames :=
  { space with
    regions := update space.regions index (some { path, readwrite, entries := fun _ => .blank }) }

/-- The structures of different regions are different, and none of them is left in
the supply. -/
structure Placement (pool : List Nat) (place : Nat → List Nat) (supply : List Nat) : Prop where
  own : ∀ j, (place j).Nodup
  apart : ∀ i j t, t ∈ place i → t ∈ place j → i = j
  taken : ∀ j t, t ∈ place j → t ∈ pool ∧ t ∉ supply
  suffix : supply <:+ pool

theorem Placement.extend (placement : Placement pool place (tables ++ rest)) (distinct : pool.Nodup) :
    Placement pool (update place index tables) rest := by
  have parts := distinct.sublist placement.suffix.sublist
  rw [List.nodup_append] at parts
  obtain ⟨own, _, disjoint⟩ := parts
  have earlier : ∀ i, i ≠ index → update place index tables i = place i :=
    fun i different => update_of_ne different ..
  have fresh : ∀ i t, i ≠ index → t ∈ tables → t ∉ place i := by
    intro i t _ member placed
    exact (placement.taken i t placed).2 (List.mem_append_left _ member)
  refine ⟨fun j => ?_, fun i j t first second => ?_, fun j t member => ?_, ?_⟩
  · by_cases same : j = index
    · rw [same, update_self]
      exact own
    · rw [earlier j same]
      exact placement.own j
  · by_cases sameFirst : i = index <;> by_cases sameSecond : j = index
    · rw [sameFirst, sameSecond]
    · rw [sameFirst, update_self] at first
      rw [earlier j sameSecond] at second
      exact absurd second (fresh j t sameSecond first)
    · rw [earlier i sameFirst] at first
      rw [sameSecond, update_self] at second
      exact absurd first (fresh i t sameFirst second)
    · rw [earlier i sameFirst] at first
      rw [earlier j sameSecond] at second
      exact placement.apart i j t first second
  · by_cases same : j = index
    · rw [same, update_self] at member
      refine ⟨placement.suffix.subset (List.mem_append_left _ member), fun left => ?_⟩
      exact disjoint t member t left rfl
    · rw [earlier j same] at member
      obtain ⟨inPool, unused⟩ := placement.taken j t member
      exact ⟨inPool, fun left => unused (List.mem_append_right _ left)⟩
  · exact (List.suffix_append tables rest).trans placement.suffix

/-- The state stands for the address space. `place` says where the structures of a
region are, `origin` holds the words before the first call. -/
structure Represents (root : Nat) (pool : List Nat) (origin : Words arch)
    (place : Nat → List Nat) (state : State arch frames) (space : Space arch frames) : Prop where
  allocator : state.allocator = space.allocator
  closed : ∀ j, space.regions j = none →
    state.lower root j = none ∧ state.words root j = origin root j
  opened : ∀ j region, space.regions j = some region → Opened state root j (place j) region
  deep : ∀ j region, space.regions j = some region → region.path.length + 1 = depth arch
  placement : Placement pool place state.supply
  budget : depth arch * space.closedEntries.card ≤ state.supply.length
  outside : ∀ t, t ≠ root → t ∉ pool → state.words t = origin t

theorem represents_start (setup : Setup arch root pool) (null : ∀ j, state.lower root j = none)
    (supply : state.supply = pool) :
    Represents root pool state.words (fun _ => []) state
      { regions := fun _ => none, allocator := state.allocator } where
  allocator := rfl
  closed j _ := ⟨null j, rfl⟩
  opened j region opened := by cases opened
  deep j region opened := by cases opened
  placement := by
    refine ⟨fun j => List.nodup_nil, fun i j t member => ?_, fun j t member => ?_, ?_⟩
    · cases member
    · cases member
    · rw [supply]
  budget := by
    rw [supply]
    refine (Nat.mul_le_mul_left _ ?_).trans setup.enough
    refine (Finset.card_filter_le _ _).trans ?_
    rw [Finset.card_range]
  outside t _ _ := rfl

section
variable (represents : Represents root pool origin place state space)
include represents

theorem Represents.placed_ne_root (setup : Setup arch root pool) (member : table ∈ place index) :
    table ≠ root := by
  rintro rfl
  exact (List.nodup_cons.mp setup.distinct).1 (represents.placement.taken _ _ member).1

/-- Where the controllers lead from the top level. -/
theorem Represents.descend (index : Nat) (query : List Nat)
    (short : ∀ region, space.regions index = some region → query.length ≤ region.path.length) :
    state.descend root (index :: query) = (space.regions index).bind
      (fun region => if query <+: region.path then (place index)[query.length]? else none) := by
  cases entry : space.regions index with
  | none => simp [State.descend, (represents.closed index entry).1]
  | some region =>
    obtain ⟨below, rest, readwrite, leaf, placed, linked, stem, _⟩ :=
      (represents.opened index region entry).chain
    simp [State.descend, linked.lower, stem.descend (short region entry), placed]

/-- Off the path of a region the controllers lead to a null pointer. -/
theorem Represents.descend_none (opened : space.regions index = some region)
    (deep : path.length + 1 = depth arch) (different : region.path ≠ path) :
    state.descend root (index :: path) = none := by
  have length := represents.deep index region opened
  have short : ∀ other, space.regions index = some other → path.length ≤ other.path.length := by
    intro other found
    cases opened.symm.trans found
    omega
  have off : ¬ path <+: region.path := by
    intro isPrefix
    exact different (isPrefix.eq_of_length (by omega)).symm
  rw [represents.descend index path short, opened, Option.bind_some, if_neg off]

end

theorem card_closedEntries_open (path : List Nat) (readwrite : Bool) (closed : space.regions index = none)
    (inside : index < entryCount arch) :
    (space.openRegion index path readwrite).closedEntries.card + 1 = space.closedEntries.card := by
  have member : index ∈ space.closedEntries := by
    simp [Space.closedEntries, inside, closed]
  have erased : (space.openRegion index path readwrite).closedEntries =
      space.closedEntries.erase index := by
    ext j
    by_cases same : j = index
    all_goals simp [Space.closedEntries, Space.openRegion, same]
  rw [erased, Finset.card_erase_add_one member]

theorem Represents.populate_opened (represents : Represents root pool origin place state space)
    (opened : space.regions index = some region) :
    state.populate root (index :: path) = some state := by
  obtain ⟨below, rest, readwrite, leaf, _, linked, _⟩ := (represents.opened index region opened).chain
  simp [State.populate, linked.lower]

/-- Populating below a closed entry opens a region. -/
theorem Represents.populate_closed (represents : Represents root pool origin place state space)
    (setup : Setup arch root pool) (closed : space.regions index = none)
    (inside : index < entryCount arch) (deep : path.length + 1 = depth arch) :
    ∃ after tables readwrite, state.populate root (index :: path) = some after ∧
      Represents root pool origin (update place index tables) after
        (space.openRegion index path readwrite) := by
  have fewer := card_closedEntries_open path false closed inside
  have enough : path.length < state.supply.length := by
    have budget := represents.budget
    rw [← fewer, Nat.mul_add, Nat.mul_one] at budget
    omega
  have inPool : ∀ t ∈ state.supply, t ∈ pool := fun t member => represents.placement.suffix.subset member
  have distinct : (root :: state.supply).Nodup :=
    setup.distinct.sublist (represents.placement.suffix.sublist.cons_cons root)
  obtain ⟨after, below, tables, readwrite, leaf, populated, linked, stem, fresh⟩ :=
    populate_null (represents.closed index closed).1 enough distinct
      (fun t member => setup.tables t (inPool t member))
  have supply := linked.grown.supply
  have sameTable : ∀ t, t ≠ root → t ∉ state.supply → SameTable state after t := by
    intro t other unused
    refine linked.grown.same t other (fun member => unused ?_)
    rw [supply]
    exact List.mem_append_left _ member
  have placement := represents.placement
  rw [supply] at placement
  refine ⟨after, below :: tables, isReadwrite (after.words root index) && readwrite, populated, ?_⟩
  refine ⟨?_, fun j none => ?_, fun j region some => ?_, fun j region some => ?_, ?_, ?_,
    fun t other foreign => ?_⟩
  · exact linked.grown.allocator.trans represents.allocator
  · have different : j ≠ index := by
      rintro rfl
      simp [Space.openRegion] at none
    rw [(linked.others j different).1, (linked.others j different).2]
    refine represents.closed j ?_
    simpa [Space.openRegion, different] using none
  · by_cases same : j = index
    · subst same
      simp only [Space.openRegion, update_self, Option.some.injEq] at some ⊢
      have blank : after.entry leaf = fun _ => PageEntry.blank := by
        funext i
        simp only [State.entry, fresh.words, fresh.pageFrames, PageEntry.blank]
      rw [← some, ← blank]
      exact .intro linked.link stem
    · simp only [Space.openRegion, update_of_ne same] at some ⊢
      refine (represents.opened j region some).congr (linked.others j same).1 (linked.others j same).2
        (fun t member => sameTable t ?_ ?_)
      · exact represents.placed_ne_root setup member
      · exact (represents.placement.taken j t member).2
  · by_cases same : j = index
    · subst same
      simp only [Space.openRegion, update_self, Option.some.injEq] at some
      rw [← some, deep]
    · simp only [Space.openRegion, update_of_ne same] at some
      exact represents.deep j region some
  · exact placement.extend (List.nodup_cons.mp setup.distinct).2
  · have budget := represents.budget
    have fewer := card_closedEntries_open path
      (isReadwrite (after.words root index) && readwrite) closed inside
    rw [← fewer, supply, Nat.mul_add, Nat.mul_one, List.length_append, List.length_cons, stem.length,
      deep] at budget
    omega
  · rw [(sameTable t other (fun member => foreign (inPool t member))).words]
    exact represents.outside t other foreign

end

def sampleRoot (arch : Arch) : Nat := kernelVirtualStart arch + pageSize

/-- Structures side by side above the first megabyte. -/
def samplePool (arch : Arch) : List Nat :=
  (List.range (depth arch * entryCount arch)).map
    (fun k => kernelVirtualStart arch + 0x100000 + k * pageSize)

/-- An empty top level structure. -/
def sampleState (arch : Arch) (allocator : PageFrameAllocator frames) : State arch frames where
  words _ _ := 0
  lower _ _ := none
  pageFrames _ _ := none
  supply := samplePool arch
  allocator := allocator

theorem sample_setup (arch : Arch) : Setup arch (sampleRoot arch) (samplePool arch) where
  tables t member := by
    obtain ⟨k, bound, rfl⟩ := List.mem_map.mp member
    rw [List.mem_range] at bound
    refine ⟨?_, ?_, ?_⟩ <;> cases arch <;>
      simp only [kernelVirtualStart, pageSize, depth, entryCount, Arch.modulus, Arch.wordBytes] at bound ⊢ <;> omega
  distinct := by
    refine List.nodup_cons.mpr ⟨fun member => ?_, List.nodup_range.map fun i j same => ?_⟩
    · obtain ⟨k, _, same⟩ := List.mem_map.mp member
      simp only [sampleRoot, pageSize] at same
      omega
    · simp only [pageSize] at same
      omega
  enough := by rw [samplePool, List.length_map, List.length_range]

end FlapjackOS.Paging
