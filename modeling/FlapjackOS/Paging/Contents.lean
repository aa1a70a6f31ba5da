import FlapjackOS.Paging.Mapping
import FlapjackOS.Paging.Walk

namespace FlapjackOS.Paging

open Frames Function

variable {arch : Arch} {frames : Nat} {space after : Space arch frames} {page other : PageIndex}
  {effect : Bool → Bool} {use : Use arch frames} {writable : Bool} {entry : PageEntry arch}
  {allocator : PageFrameAllocator frames}

@[simp]
theorem isPresent_blank : (PageEntry.blank : PageEntry arch).isPresent = false := isPresent_zero

@[simp]
theorem readEntry_blank : readEntry (PageEntry.blank : PageEntry arch).pte = none := by
  have absent : isPresent (PageEntry.blank : PageEntry arch).pte = false := isPresent_zero
  rw [readEntry, absent]
  rfl

namespace Space

section
variable (space : Space arch frames)

/-- The permission above the page table that an entry of the top level opens. -/
def upper (index : Nat) : Option Bool :=
  (space.regions index).map Region.readwrite

/-- The path to the page table that an entry of the top level opens. -/
def pathOf (index : Nat) : Option (List Nat) :=
  (space.regions index).map Region.path

def entriesOf (index : Nat) : Nat → PageEntry arch :=
  match space.regions index with
  | some region => region.entries
  | none => fun _ => .blank

/-- The entry of a page, which is blank if it has no page table. -/
def entryAt (page : PageIndex) : PageEntry arch :=
  if space.pathOf page.root = some page.path then space.entriesOf page.root page.leaf else .blank

/-- The space with a new entry for the page. -/
def put (page : PageIndex) (readwrite : Bool) (entry : PageEntry arch)
    (allocator : PageFrameAllocator frames) : Space arch frames where
  regions := update space.regions page.root (some {
    path := page.path
    readwrite
    entries := update (space.entriesOf page.root) page.leaf entry })
  allocator

/-- The page table of the page exists, or there is no other in its place. -/
def Enters (page : PageIndex) : Prop :=
  ∀ path, space.pathOf page.root = some path → path = page.path

end

instance : Decidable (space.Enters page) :=
  match found : space.pathOf page.root with
  | none => .isTrue (by simp [Enters, found])
  | some path => decidable_of_iff (path = page.path) (by simp [Enters, found])

@[simp]
theorem upper_put :
    (space.put page writable entry allocator).upper = update space.upper page.root (some writable) :=
  comp_update (Option.map Region.readwrite) space.regions page.root _

@[simp]
theorem pathOf_put :
    (space.put page writable entry allocator).pathOf =
      update space.pathOf page.root (some page.path) :=
  comp_update (Option.map Region.path) space.regions page.root _

@[simp]
theorem entriesOf_put : (space.put page writable entry allocator).entriesOf =
    update space.entriesOf page.root (update (space.entriesOf page.root) page.leaf entry) := by
  funext index
  by_cases same : index = page.root
  · subst same
    simp [entriesOf, put]
  · simp [entriesOf, put, same]

@[simp]
theorem allocator_put : (space.put page writable entry allocator).allocator = allocator := rfl

theorem entriesOf_eq_entryAt (enters : space.Enters page) (root : other.root = page.root)
    (path : other.path = page.path) : space.entriesOf page.root other.leaf = space.entryAt other := by
  cases found : space.regions page.root with
  | none => simp [entryAt, entriesOf, pathOf, root, found]
  | some region =>
    have same : region.path = page.path := enters _ (by simp [pathOf, found])
    simp [entryAt, pathOf, root, path, found, same]

theorem entryAt_put (enters : space.Enters page) :
    (space.put page writable entry allocator).entryAt = update space.entryAt page entry := by
  funext other
  by_cases same : other = page
  · subst same
    simp [entryAt]
  · rw [update_of_ne same]
    by_cases root : other.root = page.root
    · by_cases path : other.path = page.path
      · have leaf : other.leaf ≠ page.leaf := by
          intro leaf
          cases other
          cases page
          simp_all
        rw [← entriesOf_eq_entryAt enters root path]
        simp [entryAt, root, path, leaf]
      · have off : space.pathOf other.root ≠ some other.path := by
          intro found
          exact path (enters _ (root ▸ found))
        rw [entryAt, entryAt, if_neg off, if_neg]
        simpa [root] using Ne.symm path
    · simp [entryAt, root]

theorem map_eq : space.map page writable use =
    if space.Enters page then
      (use space.allocator (space.entryAt page)).map fun result =>
        space.put page writable result.2 result.1
    else none := by
  cases found : space.regions page.root with
  | none =>
    have enters : space.Enters page := by simp [Enters, pathOf, found]
    rw [if_pos enters, ← entriesOf_eq_entryAt enters rfl rfl]
    simp only [map, populate, access, put, entriesOf, found, openRegion, update_self, update_idem,
      Option.bind_eq_bind, Option.bind_some, if_true]
    cases use space.allocator PageEntry.blank <;> rfl
  | some region =>
    by_cases path : region.path = page.path
    · have enters : space.Enters page := by simp [Enters, pathOf, found, path]
      rw [if_pos enters, ← entriesOf_eq_entryAt enters rfl rfl]
      simp only [map, populate, access, put, entriesOf, found, Option.bind_eq_bind, Option.bind_some,
        path, if_true]
      cases use space.allocator (region.entries page.leaf) <;> rfl
    · have blocked : ¬ space.Enters page := by simp [Enters, pathOf, found, path]
      simp [map, populate, access, found, path, blocked]

theorem access_eq : space.access page effect use =
    if space.pathOf page.root = some page.path then
      (use space.allocator (space.entryAt page)).bind fun result =>
        (space.upper page.root).map fun readwrite =>
          space.put page (effect readwrite) result.2 result.1
    else none := by
  cases found : space.regions page.root with
  | none => simp [access, pathOf, found]
  | some region =>
    by_cases path : region.path = page.path
    · have enters : space.Enters page := by simp [Enters, pathOf, found, path]
      have here : space.pathOf page.root = some page.path := by simp [pathOf, found, path]
      rw [if_pos here, ← entriesOf_eq_entryAt enters rfl rfl]
      simp only [access, put, upper, entriesOf, found, Option.bind_eq_bind, Option.bind_some,
        Option.map_some, path, if_true]
      cases use space.allocator (region.entries page.leaf) <;> rfl
    · simp [access, pathOf, found, path]

theorem walk_eq (foreign : PageIndex → Option (Bool × Nat)) : space.walk foreign page =
    match space.upper page.root with
    | none => foreign page
    | some readwrite => (readEntry (space.entryAt page).pte).map (restrict readwrite) := by
  cases found : space.regions page.root with
  | none => simp [walk, upper, found]
  | some region =>
    by_cases path : region.path = page.path
    · simp [walk, upper, entryAt, pathOf, entriesOf, found, path]
    · simp [walk, upper, entryAt, pathOf, found, path]

theorem getEntry_eq : space.getEntry page =
    if space.pathOf page.root = some page.path then some (space.entryAt page) else none := by
  cases found : space.regions page.root with
  | none => simp [getEntry, pathOf, found]
  | some region =>
    by_cases path : region.path = page.path
    · simp [getEntry, entryAt, pathOf, entriesOf, found, path]
    · simp [getEntry, pathOf, found, path]

end Space

end FlapjackOS.Paging
