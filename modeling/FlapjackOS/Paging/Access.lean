import FlapjackOS.Machine.Simulation
import FlapjackOS.Paging.MemoryMap
import FlapjackOS.Paging.Represents

namespace FlapjackOS.Paging

open Frames Function Simulation

variable {arch : Arch} {frames : Nat} {state after : State arch frames} {space : Space arch frames}
  {table index below leaf root : Nat} {path query tables pool : List Nat} {readwrite : Bool}
  {change : Word arch → Word arch} {effect : Bool → Bool} {use : Use arch frames} {page : PageIndex}
  {origin : Words arch} {place : Nat → List Nat} {region : Region arch}
  {linearAddress : Nat}

namespace Space

section
variable (space : Space arch frames) (page : PageIndex)

/-- Apply `effect` to the permission above the page table and use the page's entry. -/
def access (effect : Bool → Bool)
    (use : Use arch frames) : Option (Space arch frames) := do
  let region ← space.regions page.root
  if region.path = page.path then
    let (allocator, entry) ← use space.allocator (region.entries page.leaf)
    return {
      regions := update space.regions page.root (some {
        region with
        readwrite := effect region.readwrite
        entries := update region.entries page.leaf entry })
      allocator }
  else none

/-- Open the region of the page if its entry is closed. -/
def populate : Space arch frames :=
  match space.regions page.root with
  | none => space.openRegion page.root page.path false
  | some _ => space

/-- Populate, give the entries above the page table the permission `writable`, and
use the page's entry. -/
def map (writable : Bool) (use : Use arch frames) :
    Option (Space arch frames) :=
  (space.populate page).access page (fun _ => writable) use

end

end Space

/-- What `map_page` does with the entry of the page. -/
def mapEntry : {arch : Arch} → Nat → ProtectionFlags → Use arch frames
  | .i386, physicalAddress, flags => fun allocator entry =>
    entry.setMappingTo allocator physicalAddress flags
  | .x86_64, physicalAddress, flags => fun allocator entry =>
    X86_64.setPageFrameMapping physicalAddress flags allocator
      (X86_64.setPageEntryProtection entry flags)

/-- What `map_page_internal` does with the entry of the page. -/
def fillEntry : {arch : Arch} → ProtectionFlags → Use arch frames
  | .i386, flags => I386.fillEntry flags
  | .x86_64, flags => fun allocator entry =>
    X86_64.allocateAndSetPageFrameMapping flags allocator (X86_64.setPageEntryProtection entry flags)

/-- What `set_readonly` does with the entry of a page. -/
def readonlyEntry : {arch : Arch} → Use arch frames
  | .i386 => fun allocator entry => some (allocator, entry.setReadwrite false)
  | .x86_64 => fun allocator entry => some (allocator, X86_64.setPageEntryReadOnly entry)

/-- What `set_readonly` does with the permission above the page table. -/
def readonlyEffect : Arch → Bool → Bool
  | .i386 => id
  | .x86_64 => fun _ => false

namespace Space

def mapPage (space : Space arch frames) (physicalAddress linearAddress : Nat)
    (flags : ProtectionFlags) : Option (Space arch frames) :=
  space.map (locate arch linearAddress) flags.writable (mapEntry physicalAddress flags)

def mapPageInternal (flags : ProtectionFlags) (space : Space arch frames) (linearAddress : Nat) :
    Option (Space arch frames) :=
  space.map (locate arch linearAddress) flags.writable (fillEntry flags)

def setReadonlyPage (space : Space arch frames) (linearAddress : Nat) :
    Option (Space arch frames) :=
  space.access (locate arch linearAddress) (readonlyEffect arch) readonlyEntry

/-- The calls on the address space. -/
def step (space : Space arch frames) : Call → Option (Space arch frames)
  | .mapPage physicalAddress linearAddress flags =>
    space.mapPage physicalAddress linearAddress flags
  | .mapPages begin limit flags =>
    if begin % pageSize = 0 ∧ begin < limit then
      forPages arch (mapPageInternal flags) limit arch.modulus begin space
    else none
  | .setReadonly begin limit => forPages arch setReadonlyPage limit arch.modulus begin space

end Space

/-- The state stands for the space, wherever the structures are. -/
def Stands (root : Nat) (pool : List Nat) (origin : Words arch)
    (state : State arch frames) (space : Space arch frames) : Prop :=
  ∃ place, Represents root pool origin place state space

/-- `change` leaves the reference of an entry alone and has the `effect` on its R/W bit. -/
structure Changes (change : Word arch → Word arch) (effect : Bool → Bool) : Prop where
  present : ∀ word, isPresent (change word) = isPresent word
  address : ∀ word, getTableAddress (change word) = getTableAddress word
  readwrite : ∀ word, isPresent word = true → isReadwrite (change word) = effect (isReadwrite word)
  conj : ∀ a b, effect (a && b) = (effect a && effect b)

theorem Link.changed (linked : Link state table index below) (changes : Changes change effect) :
    Link (state.setWord table index (change (state.words table index))) table index below where
  lower := linked.lower
  present := by simp [State.setWord, changes.present, linked.present]
  address := by simp [State.setWord, changes.address, linked.address]

theorem setWord_same (index : Nat) (word : Word arch) (different : t ≠ table) :
    SameTable state (state.setWord table index word) t :=
  ⟨by simp [State.setWord, different], rfl, rfl⟩

/-- What has changed when the entries on the way to `leaf` have been changed. -/
structure Walked (state after : State arch frames) (tables : List Nat) (leaf : Nat) : Prop where
  same : ∀ t, t ∉ tables ∨ t = leaf → SameTable state after t
  supply : after.supply = state.supply
  allocator : after.allocator = state.allocator

theorem Stem.updatePath (stem : Stem state table path tables readwrite leaf)
    (changes : Changes change effect) (distinct : (table :: tables).Nodup) :
    ∃ after result, state.updatePath change table path = some (after, leaf) ∧
      Stem after table path tables result leaf ∧
      (∀ above, (effect above && result) = effect (above && readwrite)) ∧
      Walked state after (table :: tables) leaf := by
  induction path generalizing state table tables readwrite with
  | nil =>
    cases stem
    exact ⟨state, true, rfl, .leaf, fun above => by simp, fun t _ => .refl state t, rfl, rfl⟩
  | cons index path ih =>
    cases stem with
    | link linked sole rest =>
      rename_i below tables readwrite
      obtain ⟨outside, inner⟩ := List.nodup_cons.mp distinct
      have apart : ∀ t ∈ below :: tables, t ≠ table := fun t member same => outside (same ▸ member)
      obtain ⟨after, result, updated, stem, conj, walked⟩ :=
        ih (rest.congr fun t member => setWord_same index (change (state.words table index))
          (apart t member)) inner
      have here := walked.same table (.inl outside)
      have word : after.words table index = change (state.words table index) := by
        simp [here.words, State.setWord]
      refine ⟨after, isReadwrite (after.words table index) && result, ?_,
        .link ((linked.changed changes).congr ?_ ?_) (fun other different => ?_) stem, fun above => ?_,
        fun t choice => ?_, walked.supply, walked.allocator⟩
      · rw [State.updatePath]
        simp [State.setWord, linked.lower] at updated ⊢
        exact updated
      · rw [here.words]
      · rw [here.lower]
      · rw [here.lower, here.words]
        simpa [State.setWord, different] using sole other different
      · rw [word, changes.readwrite _ linked.present, conj, ← changes.conj]
      · have other : t ≠ table := by
          rintro rfl
          rcases choice with absent | rfl
          · exact absent List.mem_cons_self
          · exact outside rest.leaf_mem
        refine (setWord_same index _ other).trans (walked.same t ?_)
        exact choice.imp_left fun absent member => absent (List.mem_cons_of_mem _ member)

theorem State.descend_congr (same : after.lower = state.lower) :
    after.descend table query = state.descend table query := by
  induction query generalizing table with
  | nil => rfl
  | cons index query ih =>
    simp only [State.descend, same, ih]

/-- Changing the words does not change where the controllers lead. -/
theorem State.updatePath_snd (change : Word arch → Word arch) :
    (state.updatePath change table query).map Prod.snd = state.descend table query := by
  induction query generalizing state table with
  | nil => rfl
  | cons index query ih =>
    simp only [State.updatePath, State.descend, State.setWord]
    cases lower : state.lower table index with
    | none => simp
    | some below =>
      simp only [Option.bind_eq_bind, Option.bind_some, ih]
      exact State.descend_congr rfl

theorem putEntry_same (state : State arch frames) (index : Nat) (entry : PageEntry arch) (different : t ≠ table) :
    SameTable state (state.putEntry table index entry) t :=
  ⟨by simp [State.putEntry, State.setWord, different], rfl, by simp [State.putEntry, different]⟩

theorem entry_putEntry (state : State arch frames) (table index : Nat) (entry : PageEntry arch) :
    (state.putEntry table index entry).entry table = update (state.entry table) index entry := by
  funext other
  by_cases same : other = index
  · subst same
    simp [State.putEntry, State.setWord, State.entry]
  · simp [State.putEntry, State.setWord, State.entry, same]

/-- What has changed when the entries above the page table `leaf` have been changed. -/
structure Reached (state after : State arch frames) (root index : Nat) (tables : List Nat) (leaf : Nat) :
    Prop where
  member : leaf ∈ tables
  others : ∀ other, other ≠ index → after.words root other = state.words root other ∧
    after.lower root other = state.lower root other
  same : ∀ t, t ≠ root → t ∉ tables ∨ t = leaf → SameTable state after t
  supply : after.supply = state.supply
  allocator : after.allocator = state.allocator

theorem Opened.updatePath (opened : Opened state root index tables region)
    (changes : Changes change effect) (distinct : (root :: tables).Nodup) :
    ∃ after leaf, state.updatePath change root (index :: region.path) = some (after, leaf) ∧
      after.entry leaf = region.entries ∧ Reached state after root index tables leaf ∧
      ∀ i entry, Opened (after.putEntry leaf i entry) root index tables {
        path := region.path
        readwrite := effect region.readwrite
        entries := update region.entries i entry } := by
  cases opened with
  | intro linked stem =>
    rename_i below path tables readwrite leaf
    obtain ⟨outside, inner⟩ := List.nodup_cons.mp distinct
    have apart : ∀ t ∈ below :: tables, t ≠ root := fun t member same => outside (same ▸ member)
    have moved := stem.congr fun t member =>
      setWord_same index (change (state.words root index)) (apart t member)
    obtain ⟨after, result, updated, walkedStem, conj, walked⟩ := moved.updatePath changes inner
    have here := walked.same root (.inl outside)
    have entries : after.entry leaf = state.entry leaf := by
      rw [(walked.same leaf (.inr rfl)).entry,
        (setWord_same index _ (apart leaf stem.leaf_mem)).entry]
    have link : Link after root index below :=
      (linked.changed changes).congr (by rw [here.words]) (by rw [here.lower])
    refine ⟨after, leaf, ?_, entries, ⟨stem.leaf_mem, fun other different => ?_,
      fun t different choice => (setWord_same index _ different).trans (walked.same t choice),
      walked.supply, walked.allocator⟩, fun i entry => ?_⟩
    · simp only [State.updatePath]
      rw [show (state.setWord root index (change (state.words root index))).lower root index = some below
        from linked.lower]
      exact updated
    · rw [here.words, here.lower]
      simp [State.setWord, different]
    · have rootSame := putEntry_same after i entry (apart leaf stem.leaf_mem).symm
      have stemPut : Stem (after.putEntry leaf i entry) below path tables result leaf :=
        walkedStem.congr_above inner fun t _ different => putEntry_same after i entry different
      have whole := Opened.intro (link.congr (by rw [rootSame.words]) (by rw [rootSame.lower])) stemPut
      have word : after.words root index = change (state.words root index) := by
        simp [here.words, State.setWord]
      rw [entry_putEntry, entries, rootSame.words, word, changes.readwrite _ linked.present, conj] at whole
      exact whole

theorem closedEntries_update {allocator : PageFrameAllocator frames}
    (opened : (space.regions index).isSome) :
    Space.closedEntries { regions := update space.regions index (some region), allocator } =
      space.closedEntries := by
  ext j
  by_cases same : j = index
  · subst same
    simp [Space.closedEntries, Option.isSome_iff_ne_none.mp opened]
  · simp [Space.closedEntries, same]

theorem access_openRegion (first second : Bool) (page : PageIndex) :
    (space.openRegion page.root page.path first).access page (fun _ => readwrite) use =
      (space.openRegion page.root page.path second).access page (fun _ => readwrite) use := by
  simp [Space.access, Space.openRegion]

section
variable (represents : Represents root pool origin place state space) (setup : Setup arch root pool)
include represents setup

/-- The rest of the address space is not affected when the entry of a page is replaced. -/
theorem Represents.put {entry : PageEntry arch} (present : (space.regions index).isSome)
    (deep : region.path.length + 1 = depth arch)
    (reached : Reached state after root index (place index) leaf)
    (opened : Opened (after.putEntry leaf i entry) root index (place index) region)
    (allocator : PageFrameAllocator frames) :
    Represents root pool origin place { after.putEntry leaf i entry with allocator }
      { regions := update space.regions index (some region), allocator } := by
  have leafRoot := represents.placed_ne_root setup reached.member
  have sameTable : ∀ t, t ≠ root → t ∉ place index →
      SameTable state { after.putEntry leaf i entry with allocator } t := by
    intro t other outside
    have notLeaf : t ≠ leaf := fun same => outside (same ▸ reached.member)
    have put := putEntry_same after i entry notLeaf
    exact (reached.same t other (.inl outside)).trans ⟨put.words, put.lower, put.pageFrames⟩
  have rootSame := putEntry_same after i entry leafRoot.symm
  have rootOthers : ∀ j, j ≠ index →
      (after.putEntry leaf i entry).words root j = state.words root j ∧
        (after.putEntry leaf i entry).lower root j = state.lower root j := by
    intro j different
    rw [rootSame.words, rootSame.lower]
    exact reached.others j different
  refine ⟨rfl, fun j closed => ?_, fun j other found => ?_, fun j other found => ?_, ?_, ?_,
    fun t other foreign => ?_⟩
  · have different : j ≠ index := by
      rintro rfl
      simp at closed
    rw [(rootOthers j different).1, (rootOthers j different).2]
    exact represents.closed j (by simpa [different] using closed)
  · by_cases same : j = index
    · subst same
      simp only [update_self, Option.some.injEq] at found
      rw [← found]
      exact opened.congr rfl rfl fun t _ => ⟨rfl, rfl, rfl⟩
    · simp only [update_of_ne same] at found
      refine (represents.opened j other found).congr (rootOthers j same).1 (rootOthers j same).2
        (fun t member => sameTable t (represents.placed_ne_root setup member) fun both => ?_)
      exact same (represents.placement.apart j index t member both)
  · by_cases same : j = index
    · subst same
      simp only [update_self, Option.some.injEq] at found
      rw [← found, deep]
    · exact represents.deep j other (by simpa [same] using found)
  · have supply : (after.putEntry leaf i entry).supply = state.supply := reached.supply
    rw [supply]
    exact represents.placement
  · have supply : (after.putEntry leaf i entry).supply = state.supply := reached.supply
    rw [supply, closedEntries_update present]
    exact represents.budget
  · rw [(sameTable t other fun member => foreign (represents.placement.taken index t member).1).words]
    exact represents.outside t other foreign

theorem Represents.access (changes : Changes change effect) (deep : page.path.length + 1 = depth arch) :
    Option.Rel (Represents root pool origin place) (state.access root page change use)
      (space.access page effect use) := by
  cases entry : space.regions page.root with
  | none =>
    have lower := (represents.closed page.root entry).1
    simp [State.access, State.updatePath, State.setWord, lower, Space.access, entry]
  | some region =>
    have opened := represents.opened page.root region entry
    have length := represents.deep page.root region entry
    by_cases path : region.path = page.path
    · have distinct : (root :: place page.root).Nodup := by
        refine List.nodup_cons.mpr ⟨fun member => ?_, represents.placement.own _⟩
        exact represents.placed_ne_root setup member rfl
      obtain ⟨after, leaf, updated, entries, reached, openedAfter⟩ := opened.updatePath changes distinct
      simp only [State.access, ← path, updated, Space.access, entry, Option.bind_eq_bind,
        Option.bind_some, if_true, entries, reached.allocator, represents.allocator]
      cases used : use space.allocator (region.entries page.leaf) with
      | none => exact .none
      | some result =>
        refine .some (represents.put setup (by simp [entry]) ?_ reached
          (openedAfter page.leaf result.2) result.1)
        exact length
    · have leads := represents.descend_none entry deep path
      rw [← State.updatePath_snd change] at leads
      simp only [State.access, Option.map_eq_none_iff.mp leads, Space.access, entry, path,
        Option.bind_eq_bind, Option.bind_none, Option.bind_some, if_false]
      exact .none

/-- Mapping a page opens its region if need be. The structures of the other regions, and
those of a region that is open already, stay where they are. -/
theorem Represents.map (changes : Changes change fun _ => readwrite) (deep : page.path.length + 1 = depth arch)
    (inside : page.root < entryCount arch) :
    ∃ tables, ((space.regions page.root).isSome → tables = place page.root) ∧
      Option.Rel (Represents root pool origin (update place page.root tables))
        (state.mapWith root page change use) (space.map page readwrite use) := by
  cases entry : space.regions page.root with
  | none =>
    obtain ⟨after, tables, first, populated, result⟩ :=
      represents.populate_closed setup entry inside deep
    refine ⟨tables, fun opened => (by cases opened), ?_⟩
    rw [State.mapWith, populated, Space.map, Space.populate, entry, access_openRegion false first]
    exact result.access setup changes deep
  | some region =>
    refine ⟨place page.root, fun _ => rfl, ?_⟩
    rw [State.mapWith, represents.populate_opened entry, Space.map, Space.populate, entry,
      update_eq_self]
    exact represents.access setup changes deep

end

theorem Stands.access (stands : Stands root pool origin state space) (setup : Setup arch root pool)
    (changes : Changes change effect) (deep : page.path.length + 1 = depth arch) :
    Option.Rel (Stands root pool origin) (state.access root page change use)
      (space.access page effect use) := by
  obtain ⟨place, represents⟩ := stands
  exact rel_mono (represents.access setup changes deep) fun _ _ here => ⟨place, here⟩

theorem Stands.map (stands : Stands root pool origin state space) (setup : Setup arch root pool)
    (changes : Changes change fun _ => readwrite) (deep : page.path.length + 1 = depth arch)
    (inside : page.root < entryCount arch) :
    Option.Rel (Stands root pool origin) (state.mapWith root page change use)
      (space.map page readwrite use) := by
  obtain ⟨place, represents⟩ := stands
  obtain ⟨tables, _, related⟩ := represents.map setup changes deep inside
  exact rel_mono related fun _ _ here => ⟨_, here⟩

section

theorem changes_setTableProtection (flags : ProtectionFlags) :
    Changes (fun word : Word arch => setTableProtection word flags) (fun _ => flags.writable) where
  present word := by simp [setTableProtection]
  address word := by
    simp only [setTableProtection, setSupervisor, setReadwrite]
    rw [getTableAddress_setFlag (by decide), getTableAddress_setFlag (by decide)]
  readwrite word _ := by simp [setTableProtection]
  conj _ _ := (Bool.and_self _).symm

/-- The entries of the path are present, so that it does not matter whether a change
leaves those alone that are not. -/
theorem Changes.ite (changes : Changes change effect) :
    Changes (fun word => if isPresent word = true then change word else word) effect where
  present word := by
    split
    · exact changes.present word
    · rfl
  address word := by
    split
    · exact changes.address word
    · rfl
  readwrite word present := by
    rw [if_pos present]
    exact changes.readwrite word present
  conj := changes.conj

theorem changes_setReadwrite :
    Changes (fun word : Word arch => setReadwrite word false) (fun _ => false) where
  present word := by simp
  address word := by
    rw [setReadwrite, getTableAddress_setFlag (by decide)]
  readwrite word _ := by simp
  conj _ _ := rfl

theorem Represents.mapPage (represents : Represents root pool origin place state space)
    (setup : Setup arch root pool) (physicalAddress : Nat)
    (flags : ProtectionFlags) (small : linearAddress < arch.modulus) :
    ∃ tables, ((space.regions (locate arch linearAddress).root).isSome →
        tables = place (locate arch linearAddress).root) ∧
      Option.Rel (Represents root pool origin (update place (locate arch linearAddress).root tables))
        (Paging.mapPage root state physicalAddress linearAddress flags)
        (space.mapPage physicalAddress linearAddress flags) := by
  have deep := locate_depth arch linearAddress
  have inside := locate_root_lt small
  cases arch with
  | i386 => exact represents.map setup (changes_setTableProtection flags) deep inside
  | x86_64 => exact represents.map setup (changes_setTableProtection flags).ite deep inside

variable (stands : Stands root pool origin state space) (setup : Setup arch root pool)
include stands setup

theorem Stands.mapPage (physicalAddress : Nat) (flags : ProtectionFlags)
    (small : linearAddress < arch.modulus) :
    Option.Rel (Stands root pool origin)
      (Paging.mapPage root state physicalAddress linearAddress flags)
      (space.mapPage physicalAddress linearAddress flags) := by
  obtain ⟨place, represents⟩ := stands
  obtain ⟨tables, _, related⟩ := represents.mapPage setup physicalAddress flags small
  exact rel_mono related fun _ _ here => ⟨_, here⟩

theorem Stands.mapPageInternal (flags : ProtectionFlags)
    (small : linearAddress < arch.modulus) :
    Option.Rel (Stands root pool origin) (Paging.mapPageInternal root flags state linearAddress)
      (space.mapPageInternal flags linearAddress) := by
  have deep := locate_depth arch linearAddress
  have inside := locate_root_lt small
  cases arch with
  | i386 => exact stands.map setup (changes_setTableProtection flags) deep inside
  | x86_64 => exact stands.map setup (changes_setTableProtection flags).ite deep inside

theorem Stands.setReadonlyPage (linearAddress : Nat) :
    Option.Rel (Stands root pool origin) (Paging.setReadonlyPage root state linearAddress)
      (space.setReadonlyPage linearAddress) := by
  have deep := locate_depth arch linearAddress
  cases arch with
  | i386 =>
    rw [Space.setReadonlyPage, Paging.setReadonlyPage, I386.setReadonlyPage]
    exact stands.access setup ⟨fun _ => rfl, fun _ => rfl, fun _ _ => rfl, fun _ _ => rfl⟩ deep
  | x86_64 =>
    rw [Space.setReadonlyPage, Paging.setReadonlyPage, X86_64.setReadonlyPage]
    exact stands.access setup changes_setReadwrite.ite deep

end

theorem forPages_rel {σ τ : Type} {related : σ → τ → Prop} {body : σ → Nat → Option σ} {spec : τ → Nat → Option τ}
    {limit : Nat} (bodies : ∀ concrete abstract page, page < arch.modulus →
      related concrete abstract → Option.Rel related (body concrete page) (spec abstract page))
    {fuel page : Nat} {concrete : σ} {abstract : τ} (small : page < arch.modulus)
    (start : related concrete abstract) :
    Option.Rel related (forPages arch body limit fuel page concrete)
      (forPages arch spec limit fuel page abstract) := by
  induction fuel generalizing page concrete abstract with
  | zero =>
    rw [forPages, forPages]
    split
    · exact .none
    · exact .some start
  | succ fuel ih =>
    rw [forPages, forPages]
    split
    · refine rel_bind (bodies concrete abstract page small start) fun _ _ next => ih ?_ next
      exact Nat.mod_lt _ (Nat.zero_lt_of_lt small)
    · exact .some start

/-- The arguments of the call are machine words. -/
def Call.Small (arch : Arch) : Call → Prop
  | .mapPage physicalAddress linearAddress _ =>
    physicalAddress < arch.modulus ∧ linearAddress < arch.modulus
  | .mapPages begin limit _ => begin < arch.modulus ∧ limit < arch.modulus
  | .setReadonly begin limit => begin < arch.modulus ∧ limit < arch.modulus

instance : (call : Call) → Decidable (call.Small arch)
  | .mapPage _ _ _ => inferInstanceAs (Decidable (_ ∧ _))
  | .mapPages _ _ _ => inferInstanceAs (Decidable (_ ∧ _))
  | .setReadonly _ _ => inferInstanceAs (Decidable (_ ∧ _))

/-- Each call does to the address space what it does to the state. -/
theorem Stands.step (stands : Stands root pool origin state space) (setup : Setup arch root pool)
    (small : Call.Small arch call) :
    Option.Rel (Stands root pool origin) (Paging.step root state call) (space.step call) := by
  cases call with
  | mapPage physicalAddress linearAddress flags =>
    exact stands.mapPage setup physicalAddress flags small.2
  | mapPages begin limit flags =>
    rw [Paging.step, Paging.mapPages, Space.step]
    split
    · refine forPages_rel (fun _ _ page small related => ?_) small.1 stands
      exact related.mapPageInternal setup flags small
    · exact .none
  | setReadonly begin limit =>
    refine forPages_rel (fun _ _ page small related => ?_) small.1 stands
    exact related.setReadonlyPage setup page

end FlapjackOS.Paging
