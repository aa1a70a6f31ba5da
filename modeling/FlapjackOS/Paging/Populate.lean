import FlapjackOS.Paging.Represents

namespace FlapjackOS.Paging

open Frames Function Runs

namespace X86_64

variable {frames : Nat} {state before after : State .x86_64 frames} {root linearAddress : Nat}

/-- `PageMapLevelFourController::populate`. -/
def populate (root : Nat) (state : State .x86_64 frames) (linearAddress : Nat) :
    Option (State .x86_64 frames) :=
  state.populate root [getIndexOfPml4EntryByAddress linearAddress,
    getIndexOfPml3EntryByAddress linearAddress, getIndexOfPml2EntryByAddress linearAddress]

section
variable (state : State .x86_64 frames) (root linearAddress : Nat)

def getPml3 : Option Nat :=
  state.descend root [getIndexOfPml4EntryByAddress linearAddress]

def getPml2 : Option Nat :=
  state.descend root [getIndexOfPml4EntryByAddress linearAddress,
    getIndexOfPml3EntryByAddress linearAddress]

def getPml1 : Option Nat :=
  state.descend root [getIndexOfPml4EntryByAddress linearAddress,
    getIndexOfPml3EntryByAddress linearAddress, getIndexOfPml2EntryByAddress linearAddress]

/-- The page table and the index of an entry. -/
def getPml1EntryByAddress :
    Option (Nat × Nat) :=
  (getPml1 state root linearAddress).map (·, getIndexOfPml1EntryByAddress linearAddress)

end

/-- The entry is present and holds the physical address of the structure. -/
def Refers (state : State .x86_64 frames) (table index below : Nat) : Prop :=
  isPresent (state.words table index) = true ∧
    convertLogicalToPhysicalAddress .x86_64 below = some (getTableAddress (state.words table index))

/-- All lower levels exist and the entries lead to them. -/
def Complete (state : State .x86_64 frames) (root linearAddress : Nat) : Prop :=
  ∃ pml3 pml2 pml1, getPml3 state root linearAddress = some pml3 ∧
    getPml2 state root linearAddress = some pml2 ∧ getPml1 state root linearAddress = some pml1 ∧
    Refers state root (getIndexOfPml4EntryByAddress linearAddress) pml3 ∧
    Refers state pml3 (getIndexOfPml3EntryByAddress linearAddress) pml2 ∧
    Refers state pml2 (getIndexOfPml2EntryByAddress linearAddress) pml1 ∧
    getPml1EntryByAddress state root linearAddress =
      some (pml1, getIndexOfPml1EntryByAddress linearAddress)

/-- No table that could be reached before has been replaced, and the entries that led
to it still do. -/
def InPlace (before after : State .x86_64 frames) (root : Nat) : Prop :=
  (∀ linearAddress table,
    (getPml3 before root linearAddress = some table → getPml3 after root linearAddress = some table) ∧
    (getPml2 before root linearAddress = some table → getPml2 after root linearAddress = some table) ∧
    (getPml1 before root linearAddress = some table →
      getPml1 after root linearAddress = some table)) ∧
  ∀ linearAddress, Complete before root linearAddress → Complete after root linearAddress

/-- The indexes between the top level and the page table of the first address that
shares the top level entry `index`. -/
def firstPath (addresses : List Nat) (index : Nat) : Option (List Nat) :=
  (addresses.find? (fun address => (locate .x86_64 address).root == index)).map
    (fun address => (locate .x86_64 address).path)

variable {pool : List Nat} {origin : Words .x86_64} {seen addresses : List Nat}
  {place : Nat → List Nat} {space : Space .x86_64 frames}

/-- After the addresses `seen` have been populated. -/
def Tracks (root : Nat) (pool : List Nat) (origin : Words .x86_64) (seen : List Nat)
    (place : Nat → List Nat) (state : State .x86_64 frames) (space : Space .x86_64 frames) : Prop :=
  Represents root pool origin place state space ∧
    ∀ index, (space.regions index).map Region.path = firstPath seen index

theorem firstPath_append (address : Nat) :
    firstPath (seen ++ [address]) index = (firstPath seen index).or
      (if (locate .x86_64 address).root = index then some (locate .x86_64 address).path else none) := by
  unfold firstPath
  rw [List.find?_append, List.find?_singleton]
  cases found : seen.find? (fun address => (locate .x86_64 address).root == index) with
  | none =>
    by_cases same : (locate .x86_64 address).root = index
    · simp [same]
    · simp [same]
  | some first => simp

/-- The regions and their structures stay as they are. -/
def Extends (place : Nat → List Nat) (space : Space .x86_64 frames) (place' : Nat → List Nat)
    (space' : Space .x86_64 frames) : Prop :=
  ∀ index region, space.regions index = some region →
    space'.regions index = some region ∧ place' index = place index

theorem Tracks.populate
    (setup : Setup .x86_64 root pool) (tracks : Tracks root pool origin seen place state space)
    (address : Nat) :
    ∃ after place' space', X86_64.populate root state address = some after ∧
      Tracks root pool origin (seen ++ [address]) place' after space' ∧
      Extends place space place' space' := by
  obtain ⟨represents, paths⟩ := tracks
  have inside := getIndexOfPml4EntryByAddress_lt address
  cases entry : space.regions (getIndexOfPml4EntryByAddress address) with
  | some region =>
    refine ⟨state, place, space, represents.populate_opened entry, ⟨represents, fun index => ?_⟩,
      fun index region opened => ⟨opened, rfl⟩⟩
    rw [firstPath_append, ← paths index]
    by_cases same : (locate .x86_64 address).root = index
    · subst same
      simp only [locate, entry, Option.map_some, Option.some_or]
    · simp [same]
  | none =>
    obtain ⟨after, tables, readwrite, populated, result⟩ :=
      represents.populate_closed setup entry inside (locate_depth .x86_64 address)
    refine ⟨after, _, _, populated, ⟨result, fun index => ?_⟩, fun index other opened => ?_⟩
    · rw [firstPath_append, ← paths index]
      by_cases same : (locate .x86_64 address).root = index
      · subst same
        simp only [locate, Space.openRegion, update_self, entry, Option.map_none, Option.map_some,
          if_true, Option.or]
      · have other : index ≠ getIndexOfPml4EntryByAddress address := Ne.symm same
        simp [Space.openRegion, same, update_of_ne other]
    · have different : index ≠ getIndexOfPml4EntryByAddress address := by
        rintro rfl
        cases entry.symm.trans opened
      exact ⟨by simp [Space.openRegion, different, opened], update_of_ne different ..⟩

theorem Tracks.run
    (setup : Setup .x86_64 root pool) (tracks : Tracks root pool origin seen place state space)
    (addresses : List Nat) :
    ∃ after place' space', run (X86_64.populate root) state addresses = some after ∧
      Tracks root pool origin (seen ++ addresses) place' after space' := by
  induction addresses generalizing seen state place space with
  | nil => exact ⟨state, place, space, rfl, by rwa [List.append_nil]⟩
  | cons address rest ih =>
    obtain ⟨next, place', space', populated, tracked, _⟩ := tracks.populate setup address
    obtain ⟨after, place'', space'', ran, result⟩ := ih tracked
    refine ⟨after, place'', space'', by simp [Runs.run, populated, ran], ?_⟩
    rwa [List.append_assoc] at result

theorem Tracks.path_length
    (tracks : Tracks root pool origin seen place state space)
    (opened : space.regions index = some region) : region.path.length = 2 :=
  Nat.succ.inj (tracks.1.deep index region opened)

theorem Tracks.inPlace {place place' : Nat → List Nat} {space space' : Space .x86_64 frames}
    (before_tracks : Tracks root pool origin seen place before space)
    (after_tracks : Tracks root pool origin addresses place' after space')
    (extends_ : Extends place space place' space') (query : List Nat) (short : query.length ≤ 2)
    (found : before.descend root (index :: query) = some table) :
    after.descend root (index :: query) = some table := by
  rw [before_tracks.1.descend index query
    (fun region opened => by rwa [before_tracks.path_length opened])] at found
  rw [after_tracks.1.descend index query
    (fun region opened => by rwa [after_tracks.path_length opened])]
  obtain ⟨region, opened, reached⟩ := Option.bind_eq_some_iff.mp found
  obtain ⟨kept, placed⟩ := extends_ index region opened
  rw [kept, placed]
  exact reached

theorem Link.refers (linked : Link state table index below) (good : KernelTable .x86_64 below) :
    Refers state table index below :=
  ⟨linked.present, by rw [good.physical.1, linked.address]⟩

theorem Complete.of_links {pml3 pml2 pml1 : Nat}
    (linked4 : Link state root (getIndexOfPml4EntryByAddress linearAddress) pml3)
    (linked3 : Link state pml3 (getIndexOfPml3EntryByAddress linearAddress) pml2)
    (linked2 : Link state pml2 (getIndexOfPml2EntryByAddress linearAddress) pml1)
    (good : ∀ t ∈ [pml3, pml2, pml1], KernelTable .x86_64 t) : Complete state root linearAddress := by
  have found : getPml1 state root linearAddress = some pml1 := by
    simp [getPml1, State.descend, linked4.lower, linked3.lower, linked2.lower]
  refine ⟨pml3, pml2, pml1, ?_, ?_, found, Link.refers linked4 (good pml3 (by simp)),
    Link.refers linked3 (good pml2 (by simp)), Link.refers linked2 (good pml1 (by simp)), ?_⟩
  · simp [getPml3, State.descend, linked4.lower]
  · simp [getPml2, State.descend, linked4.lower, linked3.lower]
  · simp [getPml1EntryByAddress, found]

/-- The levels below the top level exist for the path of the first address only. -/
theorem Tracks.complete_iff
    (setup : Setup .x86_64 root pool) (tracks : Tracks root pool origin seen place state space)
    (address : Nat) :
    Complete state root address ↔ firstPath seen (locate .x86_64 address).root =
      some (locate .x86_64 address).path := by
  rw [← tracks.2]
  constructor
  · rintro ⟨_, _, pml1, _, _, found, _⟩
    have short : ∀ region, space.regions (getIndexOfPml4EntryByAddress address) = some region →
        (locate .x86_64 address).path.length ≤ region.path.length :=
      fun region opened => (tracks.path_length opened).ge
    have reached := (tracks.1.descend _ _ short).symm.trans found
    obtain ⟨region, opened, reached⟩ := Option.bind_eq_some_iff.mp reached
    refine Option.map_eq_some_iff.mpr ⟨region, opened, ?_⟩
    split at reached
    · next isPrefix => exact (isPrefix.eq_of_length (tracks.path_length opened).symm).symm
    · cases reached
  · intro found
    obtain ⟨region, opened, path⟩ := Option.map_eq_some_iff.mp found
    obtain ⟨pml3, rest, readwrite, pml1, placed, linked4, stem, _⟩ :=
      (tracks.1.opened _ region opened).chain
    have good : ∀ t ∈ pml3 :: rest, KernelTable .x86_64 t := by
      intro t member
      exact setup.tables t (tracks.1.placement.taken _ t (placed ▸ member)).1
    rw [path] at stem
    cases stem with
    | link linked3 _ stem =>
      cases stem with
      | link linked2 _ stem =>
        cases stem
        exact Complete.of_links linked4 linked3 linked2 good

section

open PageFrameAllocator (sampleAllocator)

/-- The controller that has just been constructed over a structure of zeros. -/
structure Empty (pool : List Nat) (root : Nat) (state : State .x86_64 frames) : Prop where
  words : ∀ index, state.words root index = 0
  lower : ∀ index, state.lower root index = none
  supply : state.supply = pool

/-- After the addresses before it, `populate` builds all levels for the address and
leaves the levels that exist where they are. -/
def PopulatesAll (root : Nat) (state : State .x86_64 frames) (addresses : List Nat) (address : Nat) :
    Prop :=
  ∃ before after, run (X86_64.populate root) state addresses = some before ∧
    X86_64.populate root before address = some after ∧ Complete after root address ∧
    InPlace before after root

/-- The first address with the same PML4 entry also has the same entries at the two
levels below. -/
def AgreesWithFirst (addresses : List Nat) (address : Nat) : Prop :=
  firstPath (addresses ++ [address]) (getIndexOfPml4EntryByAddress address) =
    some [getIndexOfPml3EntryByAddress address, getIndexOfPml2EntryByAddress address]

instance : Decidable (AgreesWithFirst addresses linearAddress) :=
  inferInstanceAs (Decidable (_ = _))

theorem Empty.tracks (empty : Empty pool root state) (setup : Setup .x86_64 root pool) :
    Tracks root pool state.words [] (fun _ => []) state
      { regions := fun _ => none, allocator := state.allocator } :=
  ⟨represents_start setup empty.lower empty.supply, fun _ => rfl⟩

theorem populatesAll_iff (setup : Setup .x86_64 root pool) (empty : Empty pool root state)
    (addresses : List Nat) (address : Nat) :
    PopulatesAll root state addresses address ↔ AgreesWithFirst addresses address := by
  obtain ⟨before, place, space, ran, tracks⟩ := (empty.tracks setup).run setup addresses
  obtain ⟨after, place', space', populated, tracked, extension⟩ := tracks.populate setup address
  have complete := tracked.complete_iff setup address
  constructor
  · rintro ⟨before', after', ran', populated', result, _⟩
    cases ran.symm.trans ran'
    cases populated.symm.trans populated'
    exact complete.mp result
  · intro agrees
    refine ⟨before, after, ran, populated, complete.mpr agrees, fun other table => ⟨?_, ?_, ?_⟩,
      fun other done => ?_⟩
    · exact Tracks.inPlace tracks tracked extension [] (Nat.zero_le 2)
    · exact Tracks.inPlace tracks tracked extension [_] (Nat.le_succ 1)
    · exact Tracks.inPlace tracks tracked extension [_, _] (Nat.le_refl 2)
    · refine (tracked.complete_iff setup other).mpr ?_
      rw [firstPath_append, (tracks.complete_iff setup other).mp done, Option.some_or]

theorem populatesAll_sample :
    AgreesWithFirst [0, 0x40000000] 0x1000 ∧
      PopulatesAll (sampleRoot .x86_64) (sampleState .x86_64 sampleAllocator) [0, 0x40000000] 0x1000 := by
  have agrees : AgreesWithFirst [0, 0x40000000] 0x1000 := by decide
  have empty : Empty (samplePool .x86_64) (sampleRoot .x86_64) (sampleState .x86_64 sampleAllocator) :=
    { words := fun _ => rfl, lower := fun _ => rfl, supply := by rw [sampleState] }
  exact ⟨agrees, (populatesAll_iff (sample_setup .x86_64) empty _ _).mpr agrees⟩

/-- The second address shares the PML4 entry of the first, and the tables below it
are never built. -/
theorem populate_skips_lower_levels :
    (run (X86_64.populate (sampleRoot .x86_64)) (sampleState .x86_64 sampleAllocator)
      [0, 0x40000000]).map (fun state => (getPml3 state (sampleRoot .x86_64) 0x40000000,
        getPml2 state (sampleRoot .x86_64) 0x40000000,
        getPml1EntryByAddress state (sampleRoot .x86_64) 0x40000000)) =
      some (some 0xFFFFFFFFC0100000, none, none) := by
  decide +kernel

end

end X86_64

end FlapjackOS.Paging
