import FlapjackOS.Paging.Contents

namespace FlapjackOS.Paging

open Frames Function Runs

variable {arch : Arch} {frames : Nat} {space middle after : Space arch frames} {page : PageIndex}
  {flags : ProtectionFlags} {writable : Bool} {changed : PageEntry arch} {pages rest : List PageIndex}
  {addresses : List Nat} {physicalAddress linearAddress : Nat}
  {allocator : PageFrameAllocator frames}

namespace Space

/-- The allocator is in order, and so are the entries of all pages. -/
structure Sound (space : Space arch frames) : Prop where
  valid : space.allocator.Valid arch
  tidy : ∀ page, (space.entryAt page).Tidy frames

theorem Sound.put (sound : space.Sound) (enters : space.Enters page) (valid : allocator.Valid arch)
    (tidy : changed.Tidy frames) : (space.put page writable changed allocator).Sound := by
  refine ⟨valid, fun other => ?_⟩
  rw [entryAt_put enters]
  by_cases same : other = page
  · rw [same, update_self]
    exact tidy
  · rw [update_of_ne same]
    exact sound.tidy other

section
variable {α β : Type} {initial middle final : α → β} {xs ys : List α}

/-- What one update after the other establishes at the places they cover. -/
theorem established_append {P : β → Prop} (first : ∀ x ∈ xs, P (middle x)) (second : ∀ x ∈ ys, P (final x))
    (kept : ∀ x, x ∉ ys → final x = middle x) : ∀ x ∈ xs ++ ys, P (final x) := by
  intro x member
  by_cases later : x ∈ ys
  · exact second x later
  · rw [kept x later]
    exact first x ((List.mem_append.mp member).resolve_right later)

theorem unchanged_append (first : ∀ x, x ∉ xs → middle x = initial x)
    (second : ∀ x, x ∉ ys → final x = middle x) : ∀ x, x ∉ xs ++ ys → final x = initial x := by
  intro x absent
  rw [List.mem_append, not_or] at absent
  rw [second x absent.2, first x absent.1]

end

/-- The pages can all be reached, and populating one of them does not stand in the way
of another. -/
def Consistent (space : Space arch frames) (pages : List PageIndex) : Prop :=
  ∀ page ∈ pages, space.Enters page ∧ ∀ other ∈ pages, other.root = page.root → other.path = page.path

/-- The pages have been mapped with the permission `writable`. -/
structure Filled (writable : Bool) (pages : List PageIndex) (space after : Space arch frames) : Prop where
  upper : ∀ index, after.upper index =
    if index ∈ pages.map PageIndex.root then some writable else space.upper index
  inside : ∀ page ∈ pages, (after.entryAt page).isPresent = true ∧
    isReadwrite (after.entryAt page).pte = writable
  outside : ∀ page, page ∉ pages → after.entryAt page = space.entryAt page
  sound : after.Sound

theorem Filled.refl (sound : space.Sound) : Filled writable [] space space where
  upper _ := rfl
  inside page member := by cases member
  outside _ _ := rfl
  sound := sound

theorem Filled.put (sound : space.Sound) (enters : space.Enters page) (valid : allocator.Valid arch)
    (tidy : changed.Tidy frames) (present : changed.isPresent = true)
    (readwrite : isReadwrite changed.pte = writable) :
    Filled writable [page] space (space.put page writable changed allocator) where
  upper index := by simp [update_apply]
  inside other member := by
    obtain rfl := List.mem_singleton.mp member
    rw [entryAt_put enters, update_self]
    exact ⟨present, readwrite⟩
  outside other absent := by
    rw [entryAt_put enters, update_of_ne (by simpa using absent)]
  sound := sound.put enters valid tidy

theorem Filled.trans (first : Filled writable pages space middle)
    (second : Filled writable rest middle after) : Filled writable (pages ++ rest) space after where
  upper index := by
    rw [second.upper, first.upper, List.map_append]
    by_cases later : index ∈ rest.map PageIndex.root
    · simp only [later, List.mem_append, or_true, if_true]
    · simp only [later, List.mem_append, or_false, if_false]
  inside := established_append (P := fun entry => entry.isPresent = true ∧ isReadwrite entry.pte = writable)
    first.inside second.inside second.outside
  outside := unchanged_append first.outside second.outside
  sound := second.sound

theorem Sound.mapPage (sound : space.Sound) (flags : ProtectionFlags)
    (aligned : physicalAddress % pageSize = 0) (enters : space.Enters (locate arch linearAddress)) :
    ∃ after, space.mapPage physicalAddress linearAddress flags = some after ∧
      Filled flags.writable [locate arch linearAddress] space after := by
  obtain ⟨allocator, changed, used, valid, tidy, present, readwrite⟩ :=
    mapEntry_eq flags sound.valid (sound.tidy (locate arch linearAddress)) aligned
  refine ⟨space.put (locate arch linearAddress) flags.writable changed allocator, ?_,
    .put sound enters valid tidy present readwrite⟩
  rw [Space.mapPage, map_eq, if_pos enters, used]
  rfl

theorem mapPageInternal_eq (enters : space.Enters (locate arch linearAddress))
    (used : Paging.fillEntry flags space.allocator (space.entryAt (locate arch linearAddress)) =
      some (allocator, changed)) :
    space.mapPageInternal flags linearAddress =
      some (space.put (locate arch linearAddress) flags.writable changed allocator) := by
  rw [Space.mapPageInternal, map_eq, if_pos enters, used]
  rfl

/-- What `map_page_internal` does to the entry, whether or not a frame is left. -/
theorem Sound.fillEntry (sound : space.Sound) (flags : ProtectionFlags) (page : PageIndex) :
    ∃ allocator changed, Paging.fillEntry flags space.allocator (space.entryAt page) =
        some (allocator, changed) ∧ allocator.Valid arch ∧ changed.Tidy frames ∧
      changed.isPresent = true ∧ isReadwrite changed.pte = flags.writable := by
  have tidy := sound.tidy page
  cases here : (space.entryAt page).isPresent with
  | true =>
    obtain ⟨changed, used, kept⟩ := fillEntry_present space.allocator flags here
    exact ⟨_, changed, used, sound.valid, kept.tidy tidy, kept.present, kept.readwrite⟩
  | false =>
    obtain ⟨allocator, changed, used, valid, ⟨i, takes, mapped⟩ | ⟨_, _, mapped⟩⟩ :=
      PageEntry.setMappingFrom_eq flags sound.valid (tidy.returned_absent here)
    all_goals
      rw [← fillEntry_absent flags here] at used
      refine ⟨allocator, changed, used, valid, mapped.tidy fun _ => ?_, mapped.present, mapped.readwrite⟩
    · rw [PageFrameAllocator.frame_index]
      exact PageFrameAllocator.lt_of_free takes.free
    · rw [Nat.zero_div]
      exact valid.nonempty

theorem Sound.mapPageInternal (sound : space.Sound) (flags : ProtectionFlags)
    (enters : space.Enters (locate arch linearAddress)) :
    ∃ after, space.mapPageInternal flags linearAddress = some after ∧
      after.pathOf = update space.pathOf (locate arch linearAddress).root
        (some (locate arch linearAddress).path) ∧
      Filled flags.writable [locate arch linearAddress] space after := by
  obtain ⟨allocator, changed, used, valid, tidy, present, readwrite⟩ :=
    sound.fillEntry flags (locate arch linearAddress)
  exact ⟨_, mapPageInternal_eq enters used, pathOf_put,
    .put sound enters valid tidy present readwrite⟩

theorem Consistent.tail (consistent : space.Consistent (page :: pages))
    (paths : after.pathOf = update space.pathOf page.root (some page.path)) :
    after.Consistent pages := by
  intro other member
  obtain ⟨enters, apart⟩ := consistent other (List.mem_cons_of_mem _ member)
  refine ⟨fun path found => ?_, fun next later => apart next (List.mem_cons_of_mem _ later)⟩
  rw [paths] at found
  by_cases same : other.root = page.root
  · rw [same, update_self, Option.some.injEq] at found
    rw [← found]
    exact apart page List.mem_cons_self same.symm
  · rw [update_of_ne same] at found
    exact enters path found

/-- The loop of `map_pages`. -/
theorem Sound.run_mapPageInternal (sound : space.Sound) (flags : ProtectionFlags)
    (consistent : space.Consistent (addresses.map (locate arch))) :
    ∃ after, run (Space.mapPageInternal flags) space addresses = some after ∧
      Filled flags.writable (addresses.map (locate arch)) space after := by
  induction addresses generalizing space with
  | nil => exact ⟨space, rfl, .refl sound⟩
  | cons address addresses ih =>
    obtain ⟨middle, mapped, paths, filled⟩ :=
      sound.mapPageInternal flags (consistent _ List.mem_cons_self).1
    obtain ⟨after, ran, later⟩ := ih filled.sound (consistent.tail paths)
    exact ⟨after, by simp [run, mapped, ran], filled.trans later⟩

theorem run_paths (ran : run (Space.mapPageInternal flags) space addresses = some after) :
    (∀ index path, space.pathOf index = some path → after.pathOf index = some path) ∧
      ∀ page ∈ addresses.map (locate arch), after.pathOf page.root = some page.path := by
  induction addresses generalizing space with
  | nil =>
    cases ran
    exact ⟨fun _ _ found => found, fun page member => by cases member⟩
  | cons address addresses ih =>
    obtain ⟨middle, mapped, ran⟩ := Option.bind_eq_some_iff.mp ran
    obtain ⟨stays, later⟩ := ih ran
    rw [Space.mapPageInternal, map_eq] at mapped
    split at mapped
    case isFalse => cases mapped
    case isTrue enters =>
      obtain ⟨result, _, rfl⟩ := Option.map_eq_some_iff.mp mapped
      rw [pathOf_put] at stays
      refine ⟨fun index path found => stays index path ?_, fun page member => ?_⟩
      · by_cases same : index = (locate arch address).root
        · rw [same] at found ⊢
          rw [update_self, enters path found]
        · rw [update_of_ne same, found]
      · rcases List.mem_cons.mp member with rfl | member
        · exact stays _ _ (update_self ..)
        · exact later page member

/-- The page tables of the pages exist. -/
def Reaches (space : Space arch frames) (pages : List PageIndex) : Prop :=
  ∀ page ∈ pages, space.pathOf page.root = some page.path

/-- The pages have been made read-only. -/
structure Locked (pages : List PageIndex) (space after : Space arch frames) : Prop where
  upper : ∀ index, after.upper index =
    if index ∈ pages.map PageIndex.root then (space.upper index).map (readonlyEffect arch)
    else space.upper index
  pathOf : after.pathOf = space.pathOf
  inside : ∀ page ∈ pages, (after.entryAt page).isPresent = true →
    isReadwrite (after.entryAt page).pte = false
  present : ∀ page, (after.entryAt page).isPresent = (space.entryAt page).isPresent
  pageFrame : ∀ page, (after.entryAt page).pageFrame = (space.entryAt page).pageFrame
  address : ∀ page, frameAddress (after.entryAt page).pte = frameAddress (space.entryAt page).pte
  outside : ∀ page, page ∉ pages → after.entryAt page = space.entryAt page
  allocator : after.allocator = space.allocator

theorem Locked.refl (space : Space arch frames) : Locked [] space space where
  upper _ := rfl
  pathOf := rfl
  inside page member := by cases member
  present _ := rfl
  pageFrame _ := rfl
  address _ := rfl
  outside _ _ := rfl
  allocator := rfl

theorem Locked.trans (first : Locked pages space middle) (second : Locked rest middle after) :
    Locked (pages ++ rest) space after where
  upper index := by
    rw [second.upper, first.upper, List.map_append]
    by_cases later : index ∈ rest.map PageIndex.root <;>
      by_cases earlier : index ∈ pages.map PageIndex.root
    · simp only [later, earlier, List.mem_append, or_self, if_true, Option.map_map]
      exact congrArg (Option.map · _) (funext fun _ => by cases arch <;> rfl)
    all_goals simp [later, earlier]
  pathOf := second.pathOf.trans first.pathOf
  inside := established_append (P := fun entry => entry.isPresent = true → isReadwrite entry.pte = false)
    first.inside second.inside second.outside
  present page := (second.present page).trans (first.present page)
  pageFrame page := (second.pageFrame page).trans (first.pageFrame page)
  address page := (second.address page).trans (first.address page)
  outside := unchanged_append first.outside second.outside
  allocator := second.allocator.trans first.allocator

theorem Locked.sound (locked : Locked pages space after) (sound : space.Sound) : after.Sound where
  valid := by
    rw [locked.allocator]
    exact sound.valid
  tidy page := (sound.tidy page).congr (fun here => by rw [locked.present, here]) (locked.pageFrame page)

theorem setReadonlyPage_eq (reached : space.pathOf (locate arch linearAddress).root =
      some (locate arch linearAddress).path) :
    ∃ after, space.setReadonlyPage linearAddress = some after ∧
      Locked [locate arch linearAddress] space after := by
  obtain ⟨changed, used, present, pageFrame, address, readonly⟩ :=
    readonlyEntry_eq space.allocator (space.entryAt (locate arch linearAddress))
  have enters : space.Enters (locate arch linearAddress) := fun path found =>
    Option.some.inj (found.symm.trans reached)
  obtain ⟨region, found, path⟩ := Option.map_eq_some_iff.mp reached
  have upper : space.upper (locate arch linearAddress).root = some region.readwrite := by
    simp [Space.upper, found]
  refine ⟨space.put (locate arch linearAddress) (readonlyEffect arch region.readwrite) changed
    space.allocator, ?_, ?_⟩
  · simp [Space.setReadonlyPage, access_eq, reached, used, upper]
  · refine ⟨fun index => ?_, ?_, fun page member here => ?_, fun page => ?_, fun page => ?_, fun page => ?_,
      fun page absent => ?_, rfl⟩
    · by_cases same : index = (locate arch linearAddress).root <;> simp [same, upper]
    · rw [pathOf_put, ← reached, update_eq_self]
    · obtain rfl := List.mem_singleton.mp member
      rw [entryAt_put enters, update_self] at here ⊢
      exact readonly (present ▸ here)
    · rw [entryAt_put enters]
      by_cases same : page = locate arch linearAddress
      · rw [same, update_self, present]
      · rw [update_of_ne same]
    · rw [entryAt_put enters]
      by_cases same : page = locate arch linearAddress
      · rw [same, update_self, pageFrame]
      · rw [update_of_ne same]
    · rw [entryAt_put enters]
      by_cases same : page = locate arch linearAddress
      · rw [same, update_self, address]
      · rw [update_of_ne same]
    · rw [entryAt_put enters, update_of_ne (by simpa using absent)]

/-- The loop of `set_readonly`. -/
theorem run_setReadonlyPage (reaches : space.Reaches (addresses.map (locate arch))) :
    ∃ after, run Space.setReadonlyPage space addresses = some after ∧
      Locked (addresses.map (locate arch)) space after := by
  induction addresses generalizing space with
  | nil => exact ⟨space, rfl, .refl space⟩
  | cons address addresses ih =>
    obtain ⟨middle, set, locked⟩ := setReadonlyPage_eq (reaches _ List.mem_cons_self)
    have later : middle.Reaches (addresses.map (locate arch)) := by
      intro page member
      rw [locked.pathOf]
      exact reaches page (List.mem_cons_of_mem _ member)
    obtain ⟨after, ran, rest⟩ := ih later
    exact ⟨after, by simp [run, set, ran], locked.trans rest⟩

/-- Only pages with a page table can be made read-only. -/
theorem reaches_of_run (ran : run Space.setReadonlyPage space addresses = some after) :
    space.Reaches (addresses.map (locate arch)) := by
  induction addresses generalizing space with
  | nil =>
    intro page member
    cases member
  | cons address addresses ih =>
    obtain ⟨middle, set, ran⟩ := Option.bind_eq_some_iff.mp ran
    have here : space.pathOf (locate arch address).root = some (locate arch address).path := by
      rw [Space.setReadonlyPage, access_eq] at set
      split at set
      · assumption
      · cases set
    obtain ⟨other, same, locked⟩ := setReadonlyPage_eq here
    cases set.symm.trans same
    intro page member
    rcases List.mem_cons.mp member with rfl | member
    · exact here
    · rw [← locked.pathOf]
      exact ih ran page member

end Space

end FlapjackOS.Paging
