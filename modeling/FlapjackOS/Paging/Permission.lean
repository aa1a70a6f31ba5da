import FlapjackOS.Paging.Ranges

/-! The effective write permission of the pages, as the processor applies it, against
the permission that the calls request. -/

namespace FlapjackOS.Paging

open Frames Runs Simulation

variable {arch : Arch} {frames : Nat} {state : State arch frames} {space after : Space arch frames}
  {root : Nat} {pool : List Nat} {origin : Words arch} {page : PageIndex}
  {pages : List PageIndex} {writable : Bool} {foreign : PageIndex → Option Bool} {call : Call}

/-- The pages of the linear address space. -/
def Page (arch : Arch) (page : PageIndex) : Prop := ∃ address, address < arch.modulus ∧
  locate arch address = page

/-- The conjunction of the R/W bits on the walk to a page, if it is mapped. -/
def effective (root : Nat) (state : State arch frames) (page : PageIndex) : Option Bool :=
  (walkPage state.words root page).map Prod.fst

namespace Call

/-- The pages that overlap the range of the call. -/
def covered (arch : Arch) : Call → List PageIndex
  | .mapPage _ linearAddress _ => [locate arch linearAddress]
  | .mapPages begin limit _ => coveredPages begin limit
  | .setReadonly begin limit => coveredPages begin limit
where
  coveredPages (begin limit : Nat) : List PageIndex :=
    if begin < limit then (visitedPages (begin - begin % pageSize) limit).map (locate arch) else []

/-- The permission of a page in the range after the call. -/
def request : Call → Option Bool → Option Bool
  | .mapPage _ _ flags, _ => some flags.writable
  | .mapPages _ _ flags, _ => some flags.writable
  | .setReadonly _ _, current => current.map (fun _ => false)

theorem mem_coveredPages {begin limit : Nat} : page ∈ covered.coveredPages arch begin limit ↔
    ∃ address, begin ≤ address ∧ address < limit ∧ locate arch address = page := by
  unfold covered.coveredPages
  split
  · next nonempty =>
    constructor
    · intro member
      obtain ⟨address, visited, rfl⟩ := List.mem_map.mp member
      obtain ⟨low, high, aligned⟩ := mem_visitedPages.mp visited
      refine ⟨max begin address, by omega, by omega, locate_congr ?_⟩
      simp only [pageSize] at low aligned ⊢
      omega
    · rintro ⟨address, low, high, rfl⟩
      refine List.mem_map.mpr ⟨address - address % pageSize, mem_visitedPages.mpr ⟨?_, ?_, ?_⟩,
        locate_congr ?_⟩
      all_goals simp only [pageSize]; omega
  · next empty =>
    simp only [List.not_mem_nil, false_iff]
    rintro ⟨address, low, high, _⟩
    omega

end Call

/-- The state together with the permissions that the calls so far have requested. -/
structure Ledger (arch : Arch) (frames : Nat) where
  state : State arch frames
  requested : PageIndex → Option Bool

/-- Enter the call that has led to the state. -/
def Ledger.enter (ledger : Ledger arch frames) (call : Call) (state : State arch frames) :
    Ledger arch frames where
  state
  requested page :=
    if page ∈ call.covered arch then call.request (ledger.requested page) else ledger.requested page

def Ledger.step (root : Nat) (ledger : Ledger arch frames) (call : Call) :
    Option (Ledger arch frames) :=
  (Paging.step root ledger.state call).map (ledger.enter call)

/-- Each page is mapped and may be written to just as requested. -/
def Ledger.Granted (root : Nat) (ledger : Ledger arch frames) : Prop :=
  ∀ page, Page arch page → effective root ledger.state page = ledger.requested page

/-- The page is below the same entry of the top level as one of the pages. -/
def Shares (pages : List PageIndex) (page : PageIndex) : Prop :=
  page.root ∈ pages.map PageIndex.root

/-- The page tables of the pages exist or can be populated. -/
def Populatable (root : Nat) (state : State arch frames) (pages : List PageIndex) : Prop :=
  ∀ page ∈ pages,
    (state.lower root page.root = none ∨ (state.descend root (page.root :: page.path)).isSome) ∧
      ∀ other ∈ pages, other.root = page.root → other.path = page.path

/-- The pages can be mapped, and a page that shares a top level entry with them
neither loses its mapping nor gets another permission. -/
structure MapsExactly (root : Nat) (state : State arch frames) (writable : Bool)
    (pages : List PageIndex) : Prop where
  reaches : Populatable root state pages
  adopts : ∀ page, Page arch page → page ∉ pages → Shares pages page →
    state.lower root page.root = none → effective root state page = none
  keeps : ∀ page, Page arch page → page ∉ pages → Shares pages page →
    ∀ entry, state.getEntry root page = some entry → entry.isPresent = true →
      isReadwrite entry.pte = true → effective root state page = some writable

/-- The pages that lose their write permission when the `pages` are made read-only. -/
def Strips (arch : Arch) (pages : List PageIndex) (page : PageIndex) : Prop :=
  match arch with
  | .i386 => page ∈ pages
  | .x86_64 => Shares pages page

/-- The visited pages can be reached, and of the writable pages those that lose their
permission are those in the range. -/
structure LocksExactly (root : Nat) (state : State arch frames) (visited covered : List PageIndex) :
    Prop where
  reaches : ∀ page ∈ visited, (state.descend root (page.root :: page.path)).isSome
  strips : ∀ page, Page arch page → effective root state page = some true →
    (Strips arch visited page ↔ page ∈ covered)

/-- The calls that do what they are asked to and no more. -/
def Exact (root : Nat) (state : State arch frames) : Call → Prop
  | .mapPage _ linearAddress flags => MapsExactly root state flags.writable [locate arch linearAddress]
  | .mapPages begin limit flags => Terminates arch begin limit ∧
    MapsExactly root state flags.writable ((visitedPages begin limit).map (locate arch))
  | .setReadonly begin limit => Terminates arch begin limit ∧
    LocksExactly root state ((visitedPages begin limit).map (locate arch))
      (Call.covered arch (.setReadonly begin limit))

/-- The arguments meet the assertions of the call. -/
def Call.Asserted : Call → Prop
  | .mapPage physicalAddress _ _ => physicalAddress % pageSize = 0
  | .mapPages begin limit _ => begin % pageSize = 0 ∧ begin < limit
  | .setReadonly _ _ => True

instance : (call : Call) → Decidable call.Asserted
  | .mapPage _ _ _ => inferInstanceAs (Decidable (_ = _))
  | .mapPages _ _ _ => inferInstanceAs (Decidable (_ ∧ _))
  | .setReadonly _ _ => .isTrue trivial

/-- The arguments are machine words and meet the assertions. -/
def Call.Proper (arch : Arch) (call : Call) : Prop := call.Small arch ∧ call.Asserted

instance : Decidable (call.Proper arch) := inferInstanceAs (Decidable (_ ∧ _))

namespace Space

/-- The permission in the page's own entry. -/
def leaf (space : Space arch frames) (page : PageIndex) : Option Bool :=
  (readEntry (space.entryAt page).pte).map Prod.fst

/-- The effective permission of a page, where `foreign` is that below closed entries. -/
def permission (foreign : PageIndex → Option Bool) (space : Space arch frames) (page : PageIndex) :
    Option Bool :=
  match space.upper page.root with
  | none => foreign page
  | some readwrite => (space.leaf page).map (readwrite && ·)

theorem leaf_eq_none (absent : (space.entryAt page).isPresent = false) : space.leaf page = none := by
  have word : isPresent (space.entryAt page).pte = false := absent
  simp [leaf, readEntry, word]

theorem leaf_eq_some (present : (space.entryAt page).isPresent = true) :
    space.leaf page = some (isReadwrite (space.entryAt page).pte) := by
  have word : isPresent (space.entryAt page).pte = true := present
  simp [leaf, readEntry, word]

theorem leaf_closed (closed : space.upper page.root = none) : space.leaf page = none := by
  have missing : space.pathOf page.root ≠ some page.path := by
    have none : space.regions page.root = none := Option.map_eq_none_iff.mp closed
    simp [pathOf, none]
  refine leaf_eq_none ?_
  rw [entryAt, if_neg missing, isPresent_blank]

theorem Filled.leaf (filled : Filled writable pages space after) (page : PageIndex) :
    after.leaf page = if page ∈ pages then some writable else space.leaf page := by
  split
  · next member =>
    obtain ⟨present, readwrite⟩ := filled.inside page member
    rw [leaf_eq_some present, readwrite]
  · next absent => rw [Space.leaf, filled.outside page absent, Space.leaf]

theorem Locked.leaf (locked : Locked pages space after) (page : PageIndex) :
    after.leaf page = if page ∈ pages then (space.leaf page).map (fun _ => false)
      else space.leaf page := by
  split
  · next member =>
    cases present : (space.entryAt page).isPresent with
    | false =>
      rw [leaf_eq_none present, leaf_eq_none ((locked.present page).trans present)]
      rfl
    | true =>
      have still := (locked.present page).trans present
      rw [leaf_eq_some present, leaf_eq_some still, locked.inside page member still]
      rfl
  · next absent => rw [Space.leaf, locked.outside page absent, Space.leaf]

/-- The page is in the range, or its permission does not depend on that of the entries above. -/
def Mapping (foreign : PageIndex → Option Bool) (space : Space arch frames) (page : PageIndex) (writable : Bool)
    (pages : List PageIndex) : Prop :=
  page ∉ pages → Shares pages page →
    (space.upper page.root = none → space.permission foreign page = none) ∧
    (space.leaf page = some true → space.permission foreign page = some writable)

/-- Mapping has the requested effect on such pages. -/
theorem Filled.permission_iff (filled : Filled writable pages space after) :
    after.permission foreign page =
        (if page ∈ pages then some writable else space.permission foreign page) ↔
      space.Mapping foreign page writable pages := by
  rw [Mapping]
  have leaf := filled.leaf page
  have upper := filled.upper page.root
  by_cases member : page ∈ pages
  · have shared : page.root ∈ pages.map PageIndex.root := List.mem_map_of_mem member
    rw [if_pos shared] at upper
    rw [if_pos member] at leaf
    simp [permission, upper, leaf, member]
  · rw [if_neg member] at leaf
    by_cases shared : page.root ∈ pages.map PageIndex.root
    · rw [if_pos shared] at upper
      simp only [permission, upper, leaf, member, Shares, shared, not_false_eq_true, if_false,
        forall_const]
      cases above : space.upper page.root with
      | none =>
        simp [leaf_closed above, eq_comm]
      | some readwrite =>
        cases space.leaf page with
        | none => simp
        | some own => cases own <;> simp [eq_comm]
    · rw [if_neg shared] at upper
      simp [permission, upper, leaf, member, Shares, shared]

theorem Reaches.upper (reaches : space.Reaches pages) (shared : Shares pages page) :
    ∃ readwrite, space.upper page.root = some readwrite := by
  obtain ⟨other, member, same⟩ := List.mem_map.mp shared
  obtain ⟨region, found, _⟩ := Option.map_eq_some_iff.mp (reaches other member)
  exact ⟨region.readwrite, by simp [Space.upper, ← same, found]⟩

theorem Locked.permission_stripped (locked : Locked pages space after) (reaches : space.Reaches pages)
    (stripped : Strips arch pages page) :
    after.permission foreign page = (space.permission foreign page).map (fun _ => false) := by
  have leaf := locked.leaf page
  have upper := locked.upper page.root
  cases arch with
  | i386 =>
    have member : page ∈ pages := stripped
    have shared : page.root ∈ pages.map PageIndex.root := List.mem_map_of_mem member
    obtain ⟨readwrite, above⟩ := reaches.upper shared
    rw [if_pos shared, above] at upper
    rw [if_pos member] at leaf
    simp only [permission, upper, leaf, above, Option.map_some, Option.map_map]
    cases space.leaf page with
    | none => rfl
    | some own => simp
  | x86_64 =>
    have shared : page.root ∈ pages.map PageIndex.root := stripped
    obtain ⟨readwrite, above⟩ := reaches.upper shared
    rw [if_pos shared, above] at upper
    simp only [permission, upper, leaf, above, Option.map_some, readonlyEffect, Option.map_map]
    cases space.leaf page with
    | none => simp
    | some own => split <;> simp

theorem Locked.permission_kept (locked : Locked pages space after)
    (kept : ¬ Strips arch pages page) :
    after.permission foreign page = space.permission foreign page := by
  have leaf := locked.leaf page
  have upper := locked.upper page.root
  cases arch with
  | i386 =>
    have absent : page ∉ pages := kept
    have same : after.upper page.root = space.upper page.root := by
      rw [upper]
      split
      · exact Option.map_id'
      · rfl
    rw [if_neg absent] at leaf
    simp only [permission, same, leaf]
  | x86_64 =>
    have apart : page.root ∉ pages.map PageIndex.root := kept
    have absent : page ∉ pages := fun member => apart (List.mem_map_of_mem member)
    rw [if_neg apart] at upper
    rw [if_neg absent] at leaf
    simp only [permission, upper, leaf]

theorem Locked.permission_iff (locked : Locked pages space after) (reaches : space.Reaches pages)
    (covered : List PageIndex) :
    after.permission foreign page =
        (if page ∈ covered then (space.permission foreign page).map (fun _ => false)
          else space.permission foreign page) ↔
      (space.permission foreign page = some true → (Strips arch pages page ↔ page ∈ covered)) := by
  by_cases stripped : Strips arch pages page <;> by_cases member : page ∈ covered
  · simp [locked.permission_stripped reaches stripped, stripped, member]
  · rw [locked.permission_stripped reaches stripped]
    cases space.permission foreign page with
    | none => simp
    | some own => cases own <;> simp [stripped, member]
  · rw [locked.permission_kept stripped]
    cases space.permission foreign page with
    | none => simp
    | some own => cases own <;> simp [stripped, member]
  · simp [locked.permission_kept stripped, stripped, member]

/-- The loop of the call ends and the tables it needs are there. -/
def Passable (space : Space arch frames) : Call → Prop
  | .mapPage _ linearAddress _ => space.Consistent [locate arch linearAddress]
  | .mapPages begin limit _ =>
    Terminates arch begin limit ∧ space.Consistent ((visitedPages begin limit).map (locate arch))
  | .setReadonly begin limit =>
    Terminates arch begin limit ∧ space.Reaches ((visitedPages begin limit).map (locate arch))

/-- What a call makes of the space. -/
def Outcome (space : Space arch frames) (call : Call) (after : Space arch frames) : Prop :=
  match call with
  | .mapPage _ linearAddress flags => Filled flags.writable [locate arch linearAddress] space after
  | .mapPages begin limit flags =>
    Filled flags.writable ((visitedPages begin limit).map (locate arch)) space after
  | .setReadonly begin limit => Locked ((visitedPages begin limit).map (locate arch)) space after

theorem Sound.step (sound : space.Sound) (proper : call.Proper arch) (passable : space.Passable call) :
    ∃ after, space.step call = some after ∧ space.Outcome call after := by
  cases call with
  | mapPage physicalAddress linearAddress flags =>
    exact sound.mapPage flags proper.2 (passable _ List.mem_cons_self).1
  | mapPages begin limit flags =>
    obtain ⟨⟨small, _⟩, aligned, nonempty⟩ := proper
    obtain ⟨terminates, consistent⟩ := passable
    obtain ⟨after, ran, filled⟩ := sound.run_mapPageInternal flags consistent
    refine ⟨after, ?_, filled⟩
    rw [Space.step, if_pos ⟨aligned, nonempty⟩, forPages_eq small, if_pos terminates, ran]
  | setReadonly begin limit =>
    obtain ⟨⟨small, _⟩, _⟩ := proper
    obtain ⟨terminates, reaches⟩ := passable
    obtain ⟨after, ran, locked⟩ := run_setReadonlyPage reaches
    refine ⟨after, ?_, locked⟩
    rw [Space.step, forPages_eq small, if_pos terminates, ran]

theorem passable_of_step (proper : call.Proper arch) (stepped : space.step call = some after) :
    space.Passable call := by
  cases call with
  | mapPage physicalAddress linearAddress flags =>
    rw [Space.step, Space.mapPage, map_eq] at stepped
    split at stepped
    · next enters =>
      intro page member
      obtain rfl := List.mem_singleton.mp member
      exact ⟨enters, fun other same _ => by rw [List.mem_singleton.mp same]⟩
    · cases stepped
  | mapPages begin limit flags =>
    obtain ⟨⟨small, _⟩, aligned, nonempty⟩ := proper
    rw [Space.step, if_pos ⟨aligned, nonempty⟩] at stepped
    rw [forPages_eq small] at stepped
    split at stepped
    case isTrue terminates =>
      obtain ⟨stays, reached⟩ := run_paths stepped
      refine ⟨terminates, fun page member => ⟨fun path found => ?_, fun other otherMember same => ?_⟩⟩
      · have final := stays _ _ found
        rw [reached page member, Option.some.injEq] at final
        exact final.symm
      · have final := reached other otherMember
        rw [same, reached page member, Option.some.injEq] at final
        exact final.symm
    case isFalse => cases stepped
  | setReadonly begin limit =>
    obtain ⟨⟨small, _⟩, _⟩ := proper
    rw [Space.step] at stepped
    rw [forPages_eq small] at stepped
    split at stepped
    case isTrue terminates => exact ⟨terminates, reaches_of_run stepped⟩
    case isFalse => cases stepped

/-- What a call makes of the space, wherever it returns. -/
theorem Sound.outcome (sound : space.Sound) (small : call.Small arch)
    (stepped : space.step call = some after) : space.Outcome call after := by
  have outcome (asserted : call.Asserted) : space.Outcome call after := by
    obtain ⟨other, same, outcome⟩ := sound.step ⟨small, asserted⟩ (passable_of_step ⟨small, asserted⟩ stepped)
    cases stepped.symm.trans same
    exact outcome
  cases call with
  | mapPage physicalAddress linearAddress flags =>
    rw [Space.step, Space.mapPage, map_eq] at stepped
    split at stepped
    · next enters =>
      obtain ⟨⟨allocator, changed⟩, used, rfl⟩ := Option.map_eq_some_iff.mp stepped
      obtain ⟨valid, tidy, base, rfl⟩ :=
        mapEntry_protection sound.valid (sound.tidy (locate arch linearAddress)) used
      exact .put sound enters valid tidy PageEntry.isPresent_setProtection
        PageEntry.isReadwrite_setProtection
    · cases stepped
  | mapPages begin limit flags =>
    rw [Space.step] at stepped
    exact outcome (Option.ite_none_right_eq_some.mp stepped).1
  | setReadonly begin limit => exact outcome trivial

theorem leaf_eq_true : space.leaf page = some true ↔
    ∃ entry, space.getEntry page = some entry ∧ entry.isPresent = true ∧
      isReadwrite entry.pte = true := by
  rw [getEntry_eq]
  cases present : (space.entryAt page).isPresent with
  | false =>
    rw [leaf_eq_none present]
    split <;> simp [present]
  | true =>
    have reached : space.pathOf page.root = some page.path := by
      by_contra missing
      rw [entryAt, if_neg missing, isPresent_blank] at present
      cases present
    rw [leaf_eq_some present, if_pos reached]
    simp [present]

/-- The page has the requested permission after it, or some call around it. -/
def Agrees (foreign : PageIndex → Option Bool) (space : Space arch frames) (page : PageIndex) :
    Call → Prop
  | .mapPage _ linearAddress flags => Mapping foreign space page flags.writable [locate arch linearAddress]
  | .mapPages begin limit flags =>
    Mapping foreign space page flags.writable ((visitedPages begin limit).map (locate arch))
  | .setReadonly begin limit => space.permission foreign page = some true →
    (Strips arch ((visitedPages begin limit).map (locate arch)) page ↔
      page ∈ Call.covered arch (.setReadonly begin limit))

/-- A loop that starts at a page boundary visits the pages it should. -/
theorem coveredPages_aligned (aligned : begin % pageSize = 0) (nonempty : begin < limit) :
    Call.covered.coveredPages arch begin limit = (visitedPages begin limit).map (locate arch) := by
  simp [Call.covered.coveredPages, aligned, nonempty]

/-- A call grants what it requests for just those pages on which it agrees. -/
theorem Outcome.permission_iff (outcome : space.Outcome call after) (proper : call.Proper arch)
    (passable : space.Passable call) :
    after.permission foreign page =
        (if page ∈ call.covered arch then call.request (space.permission foreign page)
          else space.permission foreign page) ↔
      space.Agrees foreign page call := by
  cases call with
  | mapPage physicalAddress linearAddress flags => exact Filled.permission_iff outcome
  | mapPages begin limit flags =>
    rw [Call.covered, coveredPages_aligned proper.2.1 proper.2.2]
    exact Filled.permission_iff outcome
  | setReadonly begin limit => exact Locked.permission_iff outcome passable.2 _

theorem Outcome.sound (outcome : space.Outcome call after) (sound : space.Sound) : after.Sound := by
  cases call with
  | mapPage physicalAddress linearAddress flags => exact Filled.sound outcome
  | mapPages begin limit flags => exact Filled.sound outcome
  | setReadonly begin limit => exact Locked.sound outcome sound

end Space

section

theorem Page.deep (isPage : Page arch page) : page.path.length + 1 = depth arch := by
  obtain ⟨address, _, rfl⟩ := isPage
  exact locate_depth arch address

theorem map_locate_deep (arch : Arch) (addresses : List Nat) :
    ∀ page ∈ addresses.map (locate arch), page.path.length + 1 = depth arch := by
  intro page member
  obtain ⟨address, _, rfl⟩ := List.mem_map.mp member
  exact locate_depth arch address

/-- The permissions below the entries of the top level that no call has populated. -/
def foreignPermission (root : Nat) (origin : Words arch) (page : PageIndex) : Option Bool :=
  (walkPage origin root page).map Prod.fst

variable (stands : Stands root pool origin state space)
include stands

theorem Stands.allocator : state.allocator = space.allocator := by
  obtain ⟨place, represents⟩ := stands
  exact represents.allocator

theorem Stands.lower_iff : state.lower root index = none ↔ space.upper index = none := by
  obtain ⟨place, represents⟩ := stands
  cases found : space.regions index with
  | none => simp [Space.upper, found, (represents.closed index found).1]
  | some region =>
    obtain ⟨below, _, _, _, _, linked, _⟩ := (represents.opened index region found).chain
    simp [Space.upper, found, linked.lower]

theorem Stands.getEntry (deep : page.path.length + 1 = depth arch) :
    state.getEntry root page = space.getEntry page := by
  obtain ⟨place, represents⟩ := stands
  exact represents.getEntry deep

theorem Stands.descend_isSome (deep : page.path.length + 1 = depth arch) :
    (state.descend root (page.root :: page.path)).isSome ↔
      space.pathOf page.root = some page.path := by
  have same := stands.getEntry deep
  rw [Space.getEntry_eq, State.getEntry] at same
  rw [← Option.isSome_map, same]
  split
  · next reached => simp [reached]
  · next missing => simp [missing]

theorem Stands.effective (setup : Setup arch root pool) (separate : Separate root pool origin)
    (deep : page.path.length + 1 = depth arch) :
    Paging.effective root state page = space.permission (foreignPermission root origin) page := by
  obtain ⟨place, represents⟩ := stands
  rw [Paging.effective, represents.walk setup separate deep, Space.walk_eq, Space.permission]
  cases space.upper page.root with
  | none => rfl
  | some readwrite =>
    simp only [Space.leaf, Option.map_map]
    rfl

theorem Stands.enters_iff (deep : page.path.length + 1 = depth arch) :
    (state.lower root page.root = none ∨ (state.descend root (page.root :: page.path)).isSome) ↔
      space.Enters page := by
  rw [stands.lower_iff, stands.descend_isSome deep]
  cases found : space.regions page.root with
  | none => simp [Space.Enters, Space.upper, Space.pathOf, found]
  | some region => simp [Space.Enters, Space.upper, Space.pathOf, found]

theorem Stands.populatable_iff (deep : ∀ page ∈ pages, page.path.length + 1 = depth arch) :
    Populatable root state pages ↔ space.Consistent pages := by
  refine forall_congr' fun page => forall_congr' fun member => and_congr_left' ?_
  exact stands.enters_iff (deep page member)

section
variable (setup : Setup arch root pool) (separate : Separate root pool origin)
include setup separate

theorem Stands.mapsExactly_iff (deep : ∀ page ∈ pages, page.path.length + 1 = depth arch) :
    MapsExactly root state writable pages ↔ space.Consistent pages ∧
      ∀ page, Page arch page →
        Space.Mapping (foreignPermission root origin) space page writable pages := by
  constructor
  · rintro ⟨reaches, adopts, keeps⟩
    refine ⟨(stands.populatable_iff deep).mp reaches,
      fun page isPage absent shared => ⟨fun closed => ?_, fun own => ?_⟩⟩
    · rw [← stands.effective setup separate isPage.deep]
      exact adopts page isPage absent shared (stands.lower_iff.mpr closed)
    · obtain ⟨entry, found, present, readwrite⟩ := Space.leaf_eq_true.mp own
      rw [← stands.getEntry isPage.deep] at found
      rw [← stands.effective setup separate isPage.deep]
      exact keeps page isPage absent shared entry found present readwrite
  · rintro ⟨consistent, agrees⟩
    refine ⟨(stands.populatable_iff deep).mpr consistent, fun page isPage absent shared null => ?_,
      fun page isPage absent shared entry found present readwrite => ?_⟩
    · rw [stands.effective setup separate isPage.deep]
      exact (agrees page isPage absent shared).1 (stands.lower_iff.mp null)
    · rw [stands.getEntry isPage.deep] at found
      rw [stands.effective setup separate isPage.deep]
      exact (agrees page isPage absent shared).2
        (Space.leaf_eq_true.mpr ⟨entry, found, present, readwrite⟩)

/-- The exact calls are those that the space lets pass and that agree on every page. -/
theorem Stands.exact_iff (call : Call) :
    Exact root state call ↔ space.Passable call ∧
      ∀ page, Page arch page → space.Agrees (foreignPermission root origin) page call := by
  cases call with
  | mapPage physicalAddress linearAddress flags =>
    exact stands.mapsExactly_iff setup separate (map_locate_deep arch [linearAddress])
  | mapPages begin limit flags =>
    refine (and_congr_right' ?_).trans and_assoc.symm
    exact stands.mapsExactly_iff setup separate (map_locate_deep arch _)
  | setReadonly begin limit =>
    refine (and_congr_right' ?_).trans and_assoc.symm
    have deep := map_locate_deep arch (visitedPages begin limit)
    refine Iff.trans ⟨fun locks => ⟨locks.reaches, locks.strips⟩, fun both => ⟨both.1, both.2⟩⟩
      (and_congr (forall₂_congr fun page member => stands.descend_isSome (deep page member))
        (forall₂_congr fun page isPage => ?_))
    rw [stands.effective setup separate isPage.deep]
    rfl

end

end

namespace Ledger
variable {ledger next : Ledger arch frames}

/-- The state stands for a sound space, and all requests are granted. -/
def Tracked (root : Nat) (pool : List Nat) (origin : Words arch)
    (ledger : Ledger arch frames) : Prop :=
  ∃ space, Stands root pool origin ledger.state space ∧ space.Sound ∧ ledger.Granted root

theorem granted_iff (setup : Setup arch root pool) (separate : Separate root pool origin)
    (stands : Stands root pool origin ledger.state space)
    (standsNext : Stands root pool origin next.state after) (granted : ledger.Granted root)
    (stepped : ledger.step root call = some next) (proper : call.Proper arch)
    (passable : space.Passable call) (outcome : space.Outcome call after) :
    next.Granted root ↔
      ∀ page, Page arch page → space.Agrees (foreignPermission root origin) page call := by
  obtain ⟨state, _, rfl⟩ := Option.map_eq_some_iff.mp stepped
  refine forall_congr' fun page => forall_congr' fun isPage => ?_
  rw [← outcome.permission_iff proper passable, standsNext.effective setup separate isPage.deep,
    ← stands.effective setup separate isPage.deep, granted page isPage]
  rfl

theorem Tracked.step (tracked : ledger.Tracked root pool origin) (setup : Setup arch root pool)
    (separate : Separate root pool origin) (proper : call.Proper arch)
    (exact : Exact root ledger.state call) :
    ∃ next, ledger.step root call = some next ∧ next.Tracked root pool origin := by
  obtain ⟨space, stands, sound, granted⟩ := tracked
  obtain ⟨passable, agrees⟩ := (stands.exact_iff setup separate call).mp exact
  obtain ⟨after, stepped, outcome⟩ := sound.step proper passable
  have related := stands.step setup proper.1
  rw [stepped] at related
  obtain ⟨state, ran, standsNext⟩ := rel_some_right related
  have moved : ledger.step root call = some (ledger.enter call state) := by
    rw [Ledger.step, ran, Option.map_some]
  refine ⟨_, moved, after, standsNext, outcome.sound sound, ?_⟩
  exact (granted_iff setup separate stands standsNext granted moved proper passable outcome).mpr agrees

theorem Tracked.violation (tracked : ledger.Tracked root pool origin) (setup : Setup arch root pool)
    (separate : Separate root pool origin) (proper : call.Proper arch)
    (inexact : ¬ Exact root ledger.state call) (stepped : ledger.step root call = some next) :
    ¬ next.Granted root := by
  obtain ⟨space, stands, sound, granted⟩ := tracked
  obtain ⟨state, ran, rfl⟩ := Option.map_eq_some_iff.mp stepped
  have related := stands.step setup proper.1
  rw [ran] at related
  obtain ⟨after, spaceStepped, standsNext⟩ := rel_some_left related
  have passable := Space.passable_of_step proper spaceStepped
  obtain ⟨other, same, outcome⟩ := sound.step proper passable
  cases spaceStepped.symm.trans same
  rw [granted_iff setup separate stands standsNext granted stepped proper passable outcome]
  intro agrees
  exact inexact ((stands.exact_iff setup separate call).mpr ⟨passable, agrees⟩)

end Ledger

section
variable {calls : List Call}

/-- A map that has just been constructed over the structures under CR3. -/
structure Start (arch : Arch) (root : Nat) (pool : List Nat) (state : State arch frames) : Prop where
  lower : ∀ index, state.lower root index = none
  supply : state.supply = pool
  valid : state.allocator.Valid arch

theorem Start.stands (start : Start arch root pool state) (setup : Setup arch root pool) :
    Stands root pool state.words state { regions := fun _ => none, allocator := state.allocator } :=
  ⟨_, represents_start setup start.lower start.supply⟩

theorem Start.sound (start : Start arch root pool state) :
    ({ regions := fun _ => none, allocator := state.allocator } : Space arch frames).Sound :=
  ⟨start.valid, fun _ => show PageEntry.Tidy frames .blank from
    ⟨by simp [PageEntry.Releasable, PageEntry.returned, PageEntry.blank], fun _ => rfl⟩⟩

/-- The state stands for a sound space. -/
def Orderly (root : Nat) (pool : List Nat) (origin : Words arch)
    (state : State arch frames) : Prop :=
  ∃ space, Stands root pool origin state space ∧ space.Sound

theorem Start.orderly (start : Start arch root pool state) (setup : Setup arch root pool) :
    Orderly root pool state.words state :=
  ⟨_, start.stands setup, start.sound⟩

theorem Orderly.run {reached : State arch frames} (orderly : Orderly root pool origin state)
    (setup : Setup arch root pool) (small : ∀ call ∈ calls, call.Small arch)
    (ran : Runs.run (Paging.step root) state calls = some reached) :
    Orderly root pool origin reached := by
  refine run_preserves (fun before call after member held stepped => ?_) orderly ran
  obtain ⟨space, stands, sound⟩ := held
  have related := stands.step setup (small call member)
  rw [stepped] at related
  obtain ⟨next, moved, standsNext⟩ := rel_some_left related
  exact ⟨next, standsNext, (sound.outcome (small call member) moved).sound sound⟩

theorem permission_requested_iff (setup : Setup arch root pool)
    (separate : Separate root pool state.words) (start : Start arch root pool state)
    (proper : ∀ call ∈ calls, call.Proper arch) :
    Always (Ledger.step root) (Ledger.Granted root) { state, requested := effective root state } calls ↔
      Legal (Ledger.step root) (fun ledger => Exact root ledger.state)
        { state, requested := effective root state } calls := by
  have possible : Legal (Ledger.step root) (fun _ call => call.Proper arch)
      { state, requested := effective root state } calls := legal_of_forall proper
  have tracked : Ledger.Tracked root pool state.words { state, requested := effective root state } :=
    ⟨_, start.stands setup, start.sound, fun _ _ => rfl⟩
  refine always_iff_legal ?_ ?_ ?_ possible tracked
  · rintro ledger ⟨_, _, _, granted⟩
    exact granted
  · intro ledger call tracked proper exact
    exact tracked.step setup separate proper exact
  · intro ledger call next tracked proper inexact stepped
    exact tracked.violation setup separate proper inexact stepped

section

open PageFrameAllocator (sampleAllocator sampleAllocator_valid)

theorem sample_separate (arch : Arch) :
    Separate (sampleRoot arch) (samplePool arch) (sampleState arch sampleAllocator).words := by
  intro index path _ t member
  have absent : isPresent ((sampleState arch sampleAllocator).words (sampleRoot arch) index) = false := isPresent_zero
  simp [walkTables, absent] at member

theorem sample_start : Start .i386 (sampleRoot .i386) (samplePool .i386)
    (sampleState .i386 sampleAllocator) where
  lower _ := rfl
  supply := by rw [sampleState]
  valid := sampleAllocator_valid

/-- With one level below the top, the pages cannot stand in each other's way. -/
theorem sample_populatable (allocator : PageFrameAllocator frames) (addresses : List Nat) :
    Populatable (sampleRoot .i386) (sampleState .i386 allocator) (addresses.map (locate .i386)) := by
  intro page member
  refine ⟨.inl rfl, fun other otherMember _ => ?_⟩
  obtain ⟨_, _, rfl⟩ := List.mem_map.mp member
  obtain ⟨_, _, rfl⟩ := List.mem_map.mp otherMember
  rfl

/-- A range is mapped writable in an empty address space, then a page of it is made
read-only. -/
theorem permission_requested_sample :
    Always (Ledger.step (sampleRoot .i386)) (Ledger.Granted (sampleRoot .i386))
      { state := sampleState .i386 sampleAllocator
        requested := effective (sampleRoot .i386) (sampleState .i386 sampleAllocator) }
      [.mapPages 0x1000 0x3000 2, .setReadonly 0x1000 0x2000] := by
  refine (permission_requested_iff (sample_setup .i386) (sample_separate .i386) sample_start ?_).mpr
    ⟨⟨by decide, sample_populatable _ _, ?_, ?_⟩,
      fun next stepped => ⟨⟨by decide, ?_, ?_⟩, fun _ _ => trivial⟩⟩
  · decide
  · intro page _ _ _ _
    have absent : isPresent ((sampleState .i386 sampleAllocator).words (sampleRoot .i386) page.root) = false :=
      isPresent_zero
    simp [effective, walkPage, walk, absent]
  · intro page _ _ _ entry found
    simp [State.getEntry, State.descend, sampleState] at found
  · have table : (Ledger.step (sampleRoot .i386) {
        state := sampleState .i386 sampleAllocator
        requested := effective (sampleRoot .i386) (sampleState .i386 sampleAllocator) }
        (.mapPages 0x1000 0x3000 2)).map (fun ledger =>
          (ledger.state.descend (sampleRoot .i386) [0]).isSome) = some true := by decide +kernel
    rw [stepped, Option.map_some, Option.some.injEq] at table
    intro page member
    obtain rfl : page = locate .i386 0x1000 := by simpa [visitedPages, pageSize] using member
    exact table
  · intro page _ _
    rw [Call.covered, Space.coveredPages_aligned (by decide) (by decide)]
    rfl

/-- The effective and the requested permission of a page after its neighbour has been
mapped read-only. -/
def neighbour (arch : Arch) : Option (Option Bool × Option Bool) :=
  (run (Ledger.step (sampleRoot arch)) {
    state := sampleState arch sampleAllocator
    requested := effective (sampleRoot arch) (sampleState arch sampleAllocator) }
    [.mapPage 0x5000 0x1000 2, .mapPage 0x6000 0x2000 0]).map (fun ledger =>
      (effective (sampleRoot arch) ledger.state (locate arch 0x1000),
        ledger.requested (locate arch 0x1000)))

theorem readonly_mapping_strips_neighbour :
    neighbour .i386 = some (some false, some true) ∧
      neighbour .x86_64 = some (some false, some true) := by
  decide +kernel

end

end

end FlapjackOS.Paging
