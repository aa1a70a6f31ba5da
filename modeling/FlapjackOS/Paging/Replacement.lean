import FlapjackOS.Paging.Permission

/-! What `map_page` makes of a page whose page table exists, whatever the page was mapped
to before. -/

namespace FlapjackOS.Paging

open Frames Function Runs Simulation

variable {arch : Arch} {frames : Nat} {state reached : State arch frames} {space : Space arch frames}
  {root table leaf physicalAddress linearAddress : Nat} {path tables pool : List Nat}
  {origin : Words arch} {place : Nat → List Nat} {readwrite : Bool}
  {entry changed : PageEntry arch} {allocator after : PageFrameAllocator frames}
  {flags : ProtectionFlags} {page : PageIndex} {calls : List Call}

/-- The page table entry that the processor's walk ends in, present or not. -/
def findEntry (words : Words arch) (table : Nat) : List Nat → Nat → Option (Word arch)
  | [], leaf => some (words table leaf)
  | index :: path, leaf =>
    let word := words table index
    if isPresent word then
      findEntry words (convertPhysicalToLogicalAddress arch (getTableAddress word)) path leaf
    else none

/-- The frame that the allocator has given for the entry, if any, is free. -/
def Returned (allocator : PageFrameAllocator frames) (entry : PageEntry arch) : Prop :=
  ∀ controller, entry.pageFrame = some controller → controller.hasAllocator = true →
    allocator.isFree controller.pageFrame = some true

/-- The walk to the page ends in an entry for the frame with the protection of the flags,
and the frame it had from the allocator has been given back. -/
structure Replaced (root : Nat) (before after : State arch frames) (physicalAddress linearAddress : Nat)
    (flags : ProtectionFlags) : Prop where
  leaf : ∃ word, findEntry after.words root
      ((locate arch linearAddress).root :: (locate arch linearAddress).path)
      (locate arch linearAddress).leaf = some word ∧
    isPresent word = true ∧ frameAddress word = physicalAddress ∧
    isReadwrite word = flags.writable ∧ isGlobal word = flags.global
  returned : ∀ entry, before.getEntry root (locate arch linearAddress) = some entry →
    Returned after.allocator entry

/-- An entry that is mapped anew can hold the address; any other has to refer to the frame
already, and not to own one. -/
def ReplaceableEntry (allocator : PageFrameAllocator frames) (entry : PageEntry arch)
    (physicalAddress : Nat) : Prop :=
  if Remaps entry then physicalAddress < 2 ^ 52
  else frameAddress entry.pte = physicalAddress ∧ Returned allocator entry

def Replaceable (root : Nat) (state : State arch frames) (physicalAddress linearAddress : Nat) : Prop :=
  ∀ entry, state.getEntry root (locate arch linearAddress) = some entry →
    ReplaceableEntry state.allocator entry physicalAddress

theorem returned_iff : Returned allocator entry ↔ entry.returned ⊆ allocator.freeFrames := by
  simp only [Returned, PageFrameAllocator.isFree_eq, PageEntry.returned]
  cases entry.pageFrame with
  | none => simp
  | some controller =>
    cases has : controller.hasAllocator with
    | false => simp [has]
    | true => simp [has]

/-- The new entry is for the frame just if the old one could be replaced. -/
theorem mapEntry_replaces_iff (valid : allocator.Valid arch) (tidy : entry.Tidy frames)
    (small : physicalAddress < arch.modulus) (aligned : physicalAddress % pageSize = 0)
    (used : mapEntry physicalAddress flags allocator entry = some (after, changed)) :
    frameAddress changed.pte = physicalAddress ∧ Returned after entry ↔
      ReplaceableEntry allocator entry physicalAddress := by
  by_cases remaps : Remaps entry
  · rw [mapEntry_remaps _ flags remaps] at used
    obtain ⟨other, result, set, _, free, mapped⟩ :=
      PageEntry.setMappingTo_eq flags valid tidy.releasable aligned
    cases used.symm.trans set
    rw [ReplaceableEntry, if_pos remaps, returned_iff, free]
    constructor
    · rintro ⟨address, _⟩
      rw [← address]
      exact (representable_frameAddress changed.pte).2
    · intro bounded
      exact ⟨mapped.address ⟨small, bounded⟩, Finset.subset_union_right⟩
  · rw [mapEntry_keeps _ flags remaps] at used
    cases used
    rw [ReplaceableEntry, if_neg remaps, PageEntry.frameAddress_setProtection,
      PageEntry.frameAddress_setProtection]

theorem Stem.findEntry (stem : Stem state table path tables readwrite leaf)
    (good : ∀ t ∈ tables, KernelTable arch t) (i : Nat) :
    Paging.findEntry state.words table path i = some (state.words leaf i) := by
  induction stem with
  | leaf => rfl
  | link linked sole rest ih =>
    have logical := (good _ List.mem_cons_self).logical
    rw [Paging.findEntry, if_pos linked.present, linked.address, logical]
    exact ih fun t member => good t (List.mem_cons_of_mem _ member)

/-- Where the page table exists, the processor finds the entry of the address space. -/
theorem Stands.findEntry (stands : Stands root pool origin state space) (setup : Setup arch root pool)
    (reach : space.pathOf page.root = some page.path) :
    Paging.findEntry state.words root (page.root :: page.path) page.leaf =
      some (space.entryAt page).pte := by
  obtain ⟨place, represents⟩ := stands
  obtain ⟨region, found, path⟩ := Option.map_eq_some_iff.mp reach
  obtain ⟨below, rest, readwrite, leaf, placed, linked, stem, _, entries⟩ :=
    (represents.opened page.root region found).chain
  have good : ∀ t ∈ below :: rest, KernelTable arch t := fun t member =>
    setup.tables t (represents.placement.taken page.root t (placed ▸ member)).1
  have entry : space.entryAt page = state.entry leaf page.leaf := by
    rw [Space.entryAt, if_pos reach, Space.entriesOf, found, ← entries]
  rw [Paging.findEntry, if_pos linked.present, linked.address,
    (good below List.mem_cons_self).logical, ← path, entry]
  exact stem.findEntry (fun t member => good t (List.mem_cons_of_mem _ member)) page.leaf

/-- The call uses the entry of the page, and the processor then finds what it has become. -/
theorem Stands.mapPage_entry (stands : Stands root pool origin state space)
    (setup : Setup arch root pool) (sound : space.Sound)
    (reach : space.pathOf (locate arch linearAddress).root = some (locate arch linearAddress).path)
    (small : linearAddress < arch.modulus) (aligned : physicalAddress % pageSize = 0)
    (flags : ProtectionFlags) :
    ∃ after allocator changed, Paging.mapPage root state physicalAddress linearAddress flags = some after ∧
      mapEntry physicalAddress flags space.allocator (space.entryAt (locate arch linearAddress)) =
        some (allocator, changed) ∧
      Paging.findEntry after.words root
        ((locate arch linearAddress).root :: (locate arch linearAddress).path)
        (locate arch linearAddress).leaf = some changed.pte ∧
      after.allocator = allocator := by
  have related := stands.mapPage setup physicalAddress flags small
  have enters : space.Enters (locate arch linearAddress) := fun path found =>
    Option.some.inj (found.symm.trans reach)
  obtain ⟨allocator, changed, used, _⟩ :=
    mapEntry_eq flags sound.valid (sound.tidy (locate arch linearAddress)) aligned
  rw [Space.mapPage, Space.map_eq, if_pos enters, used, Option.map_some] at related
  obtain ⟨after, mapped, standsAfter⟩ := rel_some_right related
  refine ⟨after, allocator, changed, mapped, used, ?_, ?_⟩
  · rw [standsAfter.findEntry setup (by rw [Space.pathOf_put, update_self]),
      Space.entryAt_put enters, update_self]
  · exact standsAfter.allocator

theorem mapPage_replaces_iff (setup : Setup arch root pool) (start : Start arch root pool state)
    (small : ∀ call ∈ calls, call.Small arch) (ran : run (step root) state calls = some reached)
    (tables : (reached.descend root ((locate arch linearAddress).root ::
      (locate arch linearAddress).path)).isSome)
    (smallLinear : linearAddress < arch.modulus) (smallPhysical : physicalAddress < arch.modulus)
    (aligned : physicalAddress % pageSize = 0) (flags : ProtectionFlags) :
    (∃ after, mapPage root reached physicalAddress linearAddress flags = some after ∧
      Replaced root reached after physicalAddress linearAddress flags) ↔
      Replaceable root reached physicalAddress linearAddress := by
  obtain ⟨space, stands, sound⟩ := (start.orderly setup).run setup small ran
  have deep := locate_depth arch linearAddress
  have reach := (stands.descend_isSome deep).mp tables
  have held : reached.getEntry root (locate arch linearAddress) =
      some (space.entryAt (locate arch linearAddress)) := by
    rw [stands.getEntry deep, Space.getEntry_eq, if_pos reach]
  have tidy := sound.tidy (locate arch linearAddress)
  obtain ⟨after, allocator, changed, mapped, used, found, rest⟩ :=
    stands.mapPage_entry setup sound reach smallLinear aligned flags
  have entry := mapEntry_replaces_iff sound.valid tidy smallPhysical aligned used
  have same : Replaceable root reached physicalAddress linearAddress ↔
      ReplaceableEntry space.allocator (space.entryAt (locate arch linearAddress)) physicalAddress := by
    simp only [Replaceable, held, Option.some.injEq, forall_eq', stands.allocator]
  rw [same, ← entry]
  constructor
  · rintro ⟨other, again, ⟨word, leaf, _, address, _⟩, returned⟩
    cases mapped.symm.trans again
    cases found.symm.trans leaf
    rw [← rest]
    exact ⟨address, returned _ held⟩
  · rintro ⟨address, returned⟩
    obtain ⟨_, _, base, rfl⟩ := mapEntry_protection sound.valid tidy used
    refine ⟨after, mapped, ⟨_, found, PageEntry.isPresent_setProtection, address,
      PageEntry.isReadwrite_setProtection, PageEntry.isGlobal_setProtection⟩, fun other own => ?_⟩
    cases held.symm.trans own
    rw [rest]
    exact returned

section

open PageFrameAllocator (sampleAllocator)

/-- A page with a frame from the allocator, mapped to another frame. -/
def remapped (arch : Arch) : Option (Option Nat × Option Bool) := do
  let before ← run (step (sampleRoot arch)) (sampleState arch sampleAllocator)
    [.mapPages 0x1000 0x2000 2]
  let entry ← before.getEntry (sampleRoot arch) (locate arch 0x1000)
  let controller ← entry.pageFrame
  let after ← mapPage (sampleRoot arch) before 0x5000 0x1000 6
  let page := locate arch 0x1000
  return ((findEntry after.words (sampleRoot arch) (page.root :: page.path) page.leaf).map frameAddress,
    after.allocator.isFree controller.pageFrame)

theorem remapping_keeps_old_frame : remapped .x86_64 = some (some 0x1000, some false) := by
  decide +kernel

/-- On i386 the same calls replace the frame. -/
theorem mapPage_replaces_sample :
    ∃ before, run (step (sampleRoot .i386)) (sampleState .i386 sampleAllocator)
        [.mapPages 0x1000 0x2000 2] = some before ∧
      ∃ after, mapPage (sampleRoot .i386) before 0x5000 0x1000 6 = some after ∧
        Replaced (sampleRoot .i386) before after 0x5000 0x1000 6 := by
  have reaches : (run (step (sampleRoot .i386)) (sampleState .i386 sampleAllocator)
      [.mapPages 0x1000 0x2000 2]).map (fun before =>
        (before.descend (sampleRoot .i386) ((locate .i386 0x1000).root ::
          (locate .i386 0x1000).path)).isSome) = some true := by decide +kernel
  obtain ⟨before, ran, tables⟩ := Option.map_eq_some_iff.mp reaches
  refine ⟨before, ran, (mapPage_replaces_iff (sample_setup .i386) sample_start ?_ ran tables ?_ ?_ ?_
    6).mpr ?_⟩
  · decide
  · decide
  · decide
  · decide
  · intro entry _
    rw [ReplaceableEntry, if_pos (.inl rfl)]
    decide

end

end FlapjackOS.Paging
