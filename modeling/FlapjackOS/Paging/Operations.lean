import FlapjackOS.Machine.Tlb
import FlapjackOS.Paging.Readonly
import FlapjackOS.Paging.Shielding

/-! What the calls of the memory maps do to the hardware, one store and one invalidation after the
other. -/

namespace FlapjackOS.Paging

open Frames Function

variable {arch : Arch} {frames : Nat}

/-- The translation of a page with its effective permissions. -/
structure Effective where
  frame : Nat
  readwrite : Bool
  user : Bool
  deriving DecidableEq, Repr

/-- The R/W bit and the U/S bit count on all levels. -/
def Effective.limit (word : Word arch) (below : Effective) : Effective where
  frame := below.frame
  readwrite := isReadwrite word && below.readwrite
  user := isSupervisor word && below.user

/-- The processor's walk. All entries have PS = 0. -/
def translateFrom (words : Words arch) (table : Nat) : List Nat → Nat → Option Effective
  | [], leaf =>
    let word := words table leaf
    if isPresent word then some ⟨frameAddress word, isReadwrite word, isSupervisor word⟩ else none
  | index :: path, leaf =>
    let word := words table index
    if isPresent word then
      (translateFrom words (convertPhysicalToLogicalAddress arch (getTableAddress word)) path leaf).map
        (Effective.limit word)
    else none

instance Canonical.decidable : (arch : Arch) → (address : Nat) → Decidable (Canonical arch address)
  | .i386, _ => inferInstanceAs (Decidable (_ < _))
  | .x86_64, _ => inferInstanceAs (Decidable (_ ∨ _ ∧ _))

/-- What the hardware tables say of the page with a number. -/
def translate (cr3 : Nat) (words : Words arch) (page : Nat) : Option Effective :=
  if Canonical arch (page * pageSize) then
    let index := locate arch (page * pageSize)
    translateFrom words (convertPhysicalToLogicalAddress arch cr3) (index.root :: index.path) index.leaf
  else none

/-- A step of a call that the hardware can see. -/
inductive Operation (arch : Arch) where
  | store (table index : Nat) (word : Word arch)
  | clear (table : Nat)
  | invalidate (linearAddress : Nat)

namespace Operation

def apply : Operation arch → Words arch → Words arch
  | store table index word, words => update words table (update (words table) index word)
  | clear table, words => update words table (fun _ => 0)
  | invalidate _, words => words

def drops : Operation arch → Nat → Bool
  | invalidate linearAddress, page => linearAddress / pageSize = page
  | store _ _ _, _ | clear _, _ => false

end Operation

/-- The memory management unit with its TLB. -/
def mmu (arch : Arch) (cr3 : Nat) : Tlb.Mmu (Words arch) Nat Effective (Operation arch) where
  apply := Operation.apply
  drops := Operation.drops
  walk := translate cr3

/-- An assignment to the word of an entry. -/
abbrev Setter (arch : Arch) := Word arch → Word arch

/-- The word after the assignments. -/
def assign : List (Setter arch) → Word arch → Word arch
  | [], word => word
  | setter :: rest, word => assign rest (setter word)

/-- The assignments, each with a store to the entry. -/
def storeEach (table index : Nat) : List (Setter arch) → Word arch → List (Operation arch)
  | [], _ => []
  | setter :: rest, word => .store table index (setter word) :: storeEach table index rest (setter word)

def I386.PageTableEntry.clearAddress (data : BitVec 32) : BitVec 32 := data &&& addressZeroMask

def X86_64.PageTableEntry.clearAddress (data : BitVec 64) : BitVec 64 := data &&& addressZeroMask

/-- The first half of `set_address` of a page table entry. -/
def clearFrameAddress : {arch : Arch} → Word arch → Word arch
  | .i386, data => I386.PageTableEntry.clearAddress data
  | .x86_64, data => X86_64.PageTableEntry.clearAddress data

/-- `set_address` of a page table entry, which assigns to the entry twice. -/
def addressSetters (address : Nat) : List (Setter arch) :=
  [clearFrameAddress, fun word => (setFrameAddress word address).getD word]

/-- `set_protection` of a page table entry. -/
def protectionSetters (flags : ProtectionFlags) : List (Setter arch) :=
  [(setPresent · true), (setReadwrite · flags.writable), (setSupervisor · flags.supervisor),
    (setGlobal · flags.global)]

/-- `set_page_frame` -/
def pageFrameSetters (pageFrame : Nat) : List (Setter arch) :=
  addressSetters pageFrame ++ [(setPresent · (pageFrame != 0))]

/-- `set_mapping` -/
def mappingSetters (pageFrame : Nat) (flags : ProtectionFlags) : List (Setter arch) :=
  pageFrameSetters pageFrame ++ protectionSetters flags

/-- `set_pml1`, `set_pml2` and `set_pml3` -/
def linkSetters (physicalAddress : Nat) : List (Setter arch) :=
  [(setTableAddress · physicalAddress), (setPresent · (physicalAddress != 0))]

/-- `set_protection` of an entry above the page table. -/
def tableProtectionSetters (flags : ProtectionFlags) : List (Setter arch) :=
  [(setReadwrite · flags.writable), (setSupervisor · flags.supervisor)]

/-- The assignments of `map_page` to an entry above the page table. -/
def mapPathSetters (flags : ProtectionFlags) : {arch : Arch} → Word arch → List (Setter arch)
  | .i386, _ => tableProtectionSetters flags
  | .x86_64, word => if isPresent word then tableProtectionSetters flags else []

/-- Those of `set_readonly`. -/
def readonlyPathSetters : {arch : Arch} → Word arch → List (Setter arch)
  | .i386, _ => []
  | .x86_64, word => if isPresent word then [(setReadwrite · false)] else []

/-- The assignments to the entry of the page itself. -/
abbrev LeafSetters (arch : Arch) (frames : Nat) :=
  PageFrameAllocator frames → PageEntry arch → List (Setter arch)

def mapSetters (physicalAddress : Nat) (flags : ProtectionFlags) : {arch : Arch} → LeafSetters arch frames
  | .i386, _, _ => mappingSetters physicalAddress flags
  | .x86_64, _, entry =>
    if entry.isPresent then protectionSetters flags ++ protectionSetters flags
    else mappingSetters physicalAddress flags

/-- A page that is not present gets a frame from the allocator. -/
def fillSetters (flags : ProtectionFlags) : {arch : Arch} → LeafSetters arch frames
  | .i386, allocator, entry =>
    if entry.isPresent then protectionSetters flags
    else (PageFrameController.ofAllocator .i386 allocator).elim [] fun obtained =>
      mappingSetters obtained.2.pageFrame flags
  | .x86_64, allocator, entry =>
    if entry.isPresent then protectionSetters flags ++ protectionSetters flags
    else (PageFrameController.ofAllocator .x86_64 allocator).elim [] fun obtained =>
      mappingSetters obtained.2.pageFrame flags

def readonlySetters : {arch : Arch} → LeafSetters arch frames
  | .i386, _, _ => [(setReadwrite · false)]
  | .x86_64, _, entry => if entry.isPresent then [(setReadwrite · false)] else []

namespace State

def populateOperations (state : State arch frames) (table : Nat) : List Nat → List (Operation arch)
  | [] => []
  | index :: path =>
    match state.lower table index with
    | some _ => []
    | none => state.create.elim [] fun created =>
      .clear created.2 ::
        ((convertLogicalToPhysicalAddress arch created.2).elim [] fun physicalAddress =>
          storeEach table index (linkSetters physicalAddress) (created.1.words table index)) ++
        (created.1.setLower table index created.2).elim [] fun state =>
          state.populateOperations created.2 path

def updatePathOperations (setters : Word arch → List (Setter arch)) (state : State arch frames) (table : Nat) :
    List Nat → List (Operation arch)
  | [] => []
  | index :: path =>
    let word := state.words table index
    let state := state.setWord table index (assign (setters word) word)
    storeEach table index (setters word) word ++ (state.lower table index).elim [] fun below =>
      state.updatePathOperations setters below path

def accessOperations (state : State arch frames) (root : Nat) (page : PageIndex)
    (setters : Word arch → List (Setter arch)) (leaf : LeafSetters arch frames) : List (Operation arch) :=
  state.updatePathOperations setters root (page.root :: page.path) ++
    (state.updatePath (fun word => assign (setters word) word) root (page.root :: page.path)).elim []
      fun reached => storeEach reached.2 page.leaf
        (leaf reached.1.allocator (reached.1.entry reached.2 page.leaf)) (reached.1.words reached.2 page.leaf)

def mapWithOperations (state : State arch frames) (root : Nat) (page : PageIndex)
    (setters : Word arch → List (Setter arch)) (leaf : LeafSetters arch frames) : List (Operation arch) :=
  state.populateOperations root (page.root :: page.path) ++
    (state.populate root (page.root :: page.path)).elim [] fun state =>
      state.accessOperations root page setters leaf

end State

/-- The operations of a loop over the pages of a range. -/
def forPagesOperations (arch : Arch) (body : σ → Nat → Option σ) (operations : σ → Nat → List (Operation arch))
    (limit : Nat) : Nat → Nat → σ → List (Operation arch)
  | fuel, page, state =>
    if page < limit then
      match fuel with
      | 0 => []
      | fuel + 1 => operations state page ++ (body state page).elim []
          (forPagesOperations arch body operations limit fuel (arch.add page pageSize))
    else []

/-- The operations of the rounds for given pages. -/
def runOperations (body : σ → Nat → Option σ) (operations : σ → Nat → List (Operation arch)) (state : σ) :
    List Nat → List (Operation arch)
  | [] => []
  | page :: rest => operations state page ++ (body state page).elim []
      fun next => runOperations body operations next rest

/-- `invalidate_pages` -/
def invalidations (arch : Arch) (begin limit : Nat) : List (Operation arch) :=
  ((invalidatePages arch PageLoop.note [] begin limit).getD []).map .invalidate

/-- `map_page` of the managed map invalidates the page on i386 only. -/
def mapInvalidations : (arch : Arch) → Nat → List (Operation arch)
  | .i386, linearAddress => [.invalidate linearAddress]
  | .x86_64, _ => []

def managedOperations (root : Nat) (state : State arch frames) : Call → List (Operation arch)
  | .mapPage physicalAddress linearAddress flags =>
    state.mapWithOperations root (locate arch linearAddress) (mapPathSetters flags)
      (mapSetters physicalAddress flags) ++ mapInvalidations arch linearAddress
  | .mapPages begin limit flags =>
    forPagesOperations arch (mapPageInternal root flags)
      (fun state page => state.mapWithOperations root (locate arch page) (mapPathSetters flags)
        (fillSetters flags)) limit arch.modulus begin state ++ invalidations arch begin limit
  | .setReadonly begin limit =>
    forPagesOperations arch (setReadonlyPage root)
      (fun state page => state.accessOperations root (locate arch page) readonlyPathSetters readonlySetters)
      limit arch.modulus begin state ++ invalidations arch begin limit

/-- The assignments of the unmanaged map to a page table entry. -/
def unmanagedSetters (physicalAddress : Nat) (flags : ProtectionFlags) : List (Setter arch) :=
  addressSetters physicalAddress ++ [(setPresent · (physicalAddress != 0)), (setReadwrite · flags.writable),
    (setGlobal · flags.global), (setSupervisor · flags.supervisor)]

/-- Stores to the entry that the resolver finds for an address. -/
def resolvedOperations (cr3 : Nat) (setters : List (Setter arch)) (state : State arch frames) (linearAddress : Nat) :
    List (Operation arch) :=
  (Resolver.getPageTableEntry state.words cr3 linearAddress).elim [] fun place =>
    storeEach place.1 place.2 setters (state.words place.1 place.2)

def unmanagedMapOperations (cr3 : Nat) (state : State arch frames) (physicalAddress linearAddress : Nat)
    (flags : ProtectionFlags) : List (Operation arch) :=
  resolvedOperations cr3 (unmanagedSetters physicalAddress flags) state linearAddress ++
    [.invalidate linearAddress]

def unmanagedOperations (cr3 : Nat) (state : State arch frames) : Call → List (Operation arch)
  | .mapPage physicalAddress linearAddress flags =>
    unmanagedMapOperations cr3 state physicalAddress linearAddress flags
  | .mapPages begin limit flags =>
    forPagesOperations arch ((unmanagedActions cr3).fill flags)
      (fun state page => (convertLogicalToPhysicalAddress arch page).elim [] fun physicalAddress =>
        unmanagedMapOperations cr3 state physicalAddress page flags) limit arch.modulus begin state
  | .setReadonly begin limit =>
    forPagesOperations arch (unmanagedActions cr3).protect (resolvedOperations cr3 [(setReadwrite · false)])
      limit arch.modulus begin state ++ invalidations arch begin limit

/-- A call on one of the memory maps. -/
def PhysicalMemoryMap.perform (map : PhysicalMemoryMap σ) (state : σ) : Call → Option σ
  | .mapPage physicalAddress linearAddress flags => map.mapPage state physicalAddress linearAddress flags
  | .mapPages begin limit flags => map.mapPages state begin limit flags
  | .setReadonly begin limit => map.setReadonly state begin limit

/-- Both maps work on the tables that CR3 refers to. -/
def hardwareMap (cr3 : Nat) : SubMap → PhysicalMemoryMap (State arch frames)
  | .managed => ManagedPhysicalMemoryMap arch (managedActions (convertPhysicalToLogicalAddress arch cr3))
  | .unmanaged => GenericUnmanagedPhysicalMemoryMap arch (unmanagedActions cr3)

def perform (cr3 : Nat) (state : State arch frames) (call : SubMap × Call) : Option (State arch frames) :=
  (hardwareMap cr3 call.1).perform state call.2

def operations (cr3 : Nat) (state : State arch frames) : SubMap × Call → List (Operation arch)
  | (.managed, call) => managedOperations (convertPhysicalToLogicalAddress arch cr3) state call
  | (.unmanaged, call) => unmanagedOperations cr3 state call

section

variable {body : σ → Nat → Option σ} {operations : σ → Nat → List (Operation arch)} {begin limit : Nat}

theorem forPagesOperations_eq_run (terminates : Terminates arch begin limit) (small : begin < arch.modulus)
    (enough : limit ≤ begin + fuel * pageSize) (state : σ) :
    forPagesOperations arch body operations limit fuel begin state =
      runOperations body operations state (visitedPages begin limit) := by
  refine congrFun (@loop_eq_unrolled _ _ _ _ _ _ (forPagesOperations arch body operations limit)
    (fun pages state => runOperations body operations state pages)
    (fun state page rest => operations state page ++ (body state page).elim [] rest)
    ?_ ?_ (fun _ _ _ => rfl) terminates small enough) state
  · intro fuel page ended
    funext state
    cases fuel <;> rw [forPagesOperations, if_neg ended, runOperations]
  · intro fuel page state inside
    rw [forPagesOperations, if_pos inside]

end

section

theorem assign_append (first later : List (Setter arch)) (word : Word arch) :
    assign (first ++ later) word = assign later (assign first word) := by
  induction first generalizing word with
  | nil => rfl
  | cons setter first ih => exact ih _

theorem clearFrameAddress_eq {word : Word arch} : clearFrameAddress word = word &&& addressZeroMask arch := by
  cases arch with
  | i386 => rfl
  | x86_64 => rfl

theorem assign_addressSetters {word changed : Word arch} (set : setFrameAddress word address = some changed) :
    assign (addressSetters address) word = changed := by
  have again : setFrameAddress (clearFrameAddress word) address = setFrameAddress word address := by
    rw [setFrameAddress_eq, setFrameAddress_eq, setTableAddress_eq, setTableAddress_eq, clearFrameAddress_eq,
      Bits.put, Bits.put,
      BitVec.not_not, BitVec.and_assoc, BitVec.and_self]
  rw [addressSetters, assign, assign, assign, again, set]
  rfl

/-- The assignments are what the use of an entry amounts to. -/
def Assigns (use : Use arch frames) (leaf : LeafSetters arch frames) : Prop :=
  ∀ allocator entry after, use allocator entry = some after →
    after.2.pte = assign (leaf allocator entry) entry.pte

variable {allocator : PageFrameAllocator frames} {entry : PageEntry arch} {flags : ProtectionFlags}

/-- The assignments of `set_mapping`, whichever controller the entry gets. -/
theorem setPageFrame_assigns (flags : ProtectionFlags) {controller : PageFrameController}
    {after : PageFrameAllocator frames × PageEntry arch}
    (set : entry.setPageFrame allocator (some controller) = some after) :
    (after.2.setProtection flags).pte = assign (mappingSetters controller.pageFrame flags) entry.pte := by
  rw [PageEntry.setPageFrame_some] at set
  obtain ⟨dropped, -, set⟩ := Option.bind_eq_some_iff.mp set
  obtain ⟨pte, address, same⟩ := Option.map_eq_some_iff.mp set
  rw [mappingSetters, pageFrameSetters, assign_append, assign_append, assign_addressSetters address, ← same]
  rfl

theorem setMappingTo_assigns (physicalAddress : Nat) (flags : ProtectionFlags) :
    Assigns (fun (allocator : PageFrameAllocator frames) (entry : PageEntry arch) =>
        entry.setMappingTo allocator physicalAddress flags)
      (fun _ _ => mappingSetters physicalAddress flags) := by
  intro allocator entry after set
  obtain ⟨⟨released, changed⟩, framed, same⟩ := Option.bind_eq_some_iff.mp set
  cases same
  have assigned := setPageFrame_assigns flags framed
  exact assigned

theorem setMappingFrom_assigns (flags : ProtectionFlags) :
    Assigns (fun (allocator : PageFrameAllocator frames) (entry : PageEntry arch) =>
        entry.setMappingFrom allocator flags)
      (fun allocator _ => (PageFrameController.ofAllocator arch allocator).elim [] fun obtained =>
        mappingSetters obtained.2.pageFrame flags) := by
  intro allocator entry after set
  obtain ⟨obtained, found, set⟩ := Option.bind_eq_some_iff.mp set
  obtain ⟨⟨released, changed⟩, framed, same⟩ := Option.bind_eq_some_iff.mp set
  cases same
  have assigned := setPageFrame_assigns flags framed
  simp only [found, Option.elim_some]
  exact assigned

theorem fillSetters_i386 (flags : ProtectionFlags) :
    Assigns (I386.fillEntry flags) (fillSetters flags : LeafSetters .i386 frames) := by
  intro allocator entry after used
  rw [I386.fillEntry] at used
  rw [fillSetters]
  split
  · rename_i present
    rw [if_pos present] at used
    rw [← Option.some.inj used]
    rfl
  · rename_i absent
    rw [if_neg absent] at used
    exact setMappingFrom_assigns flags _ _ _ used

/-- On x86_64, the entry is protected twice if it is present, and not at all before it is mapped if not. -/
theorem setPageEntryProtection_assigns {maps : Use .x86_64 frames} {setters : LeafSetters .x86_64 frames}
    (assigns : Assigns maps setters) :
    Assigns
      (fun allocator entry =>
        if (X86_64.setPageEntryProtection entry flags).isPresent then
          some (allocator, (X86_64.setPageEntryProtection entry flags).setProtection flags)
        else maps allocator (X86_64.setPageEntryProtection entry flags))
      (fun allocator entry =>
        if entry.isPresent then protectionSetters flags ++ protectionSetters flags else setters allocator entry) := by
  intro allocator entry after used
  by_cases present : entry.isPresent = true
  · have protects : X86_64.setPageEntryProtection entry flags = entry.setProtection flags := if_pos present
    simp only [protects, PageEntry.isPresent_setProtection, if_true] at used
    simp only [if_pos present, assign_append, ← Option.some.inj used]
    rfl
  · have same : X86_64.setPageEntryProtection entry flags = entry := if_neg present
    simp only [same, if_neg present] at used ⊢
    exact assigns _ _ _ used

theorem readonlySetters_assigns : Assigns readonlyEntry (readonlySetters : LeafSetters arch frames) := by
  intro allocator entry after used
  cases arch with
  | i386 =>
    rw [← Option.some.inj used]
    rfl
  | x86_64 =>
    rw [← Option.some.inj used, readonlySetters, X86_64.setPageEntryReadOnly]
    split
    · rfl
    · rfl

theorem setEntryProtection_eq (flags : ProtectionFlags) :
    (X86_64.setEntryProtection · flags) = fun word => assign (mapPathSetters flags word) word := by
  funext word
  simp only [X86_64.setEntryProtection, mapPathSetters]
  split
  · rfl
  · rfl

theorem setEntryReadOnly_eq :
    X86_64.setEntryReadOnly = fun word => assign (readonlyPathSetters word) word := by
  funext word
  simp only [X86_64.setEntryReadOnly, readonlyPathSetters]
  split
  · rfl
  · rfl

end

section

variable {cr3 : Nat} {state middle next : State arch frames} {root table : Nat} {path : List Nat}
  {setters : Word arch → List (Setter arch)}

theorem replay_storeEach (cr3 : Nat) (words : Words arch) (table index : Nat)
    (setters : List (Setter arch)) :
    (mmu arch cr3).replay words (storeEach table index setters (words table index)) =
      update words table (update (words table) index (assign setters (words table index))) := by
  induction setters generalizing words with
  | nil => simp [storeEach, Tlb.Mmu.replay, assign]
  | cons setter rest ih =>
    have later := ih (update words table (update (words table) index (setter (words table index))))
    simp only [update_self, update_idem] at later
    exact later

/-- The operations bring the tables from one state to another. -/
def Brings (cr3 : Nat) (state : State arch frames) (operations : List (Operation arch))
    (next : State arch frames) : Prop :=
  (mmu arch cr3).replay state.words operations = next.words

theorem Brings.append (first : Brings cr3 state writes middle) (second : Brings cr3 middle more next) :
    Brings cr3 state (writes ++ more) next := by
  unfold Brings at *
  rw [Tlb.Mmu.replay_append, first, second]

theorem brings_setLower (links : state.setLower table index below = some next) :
    Brings cr3 state ((convertLogicalToPhysicalAddress arch below).elim [] fun physicalAddress =>
      storeEach table index (linkSetters physicalAddress) (state.words table index)) next := by
  simp only [State.setLower, Option.bind_eq_bind, Option.bind_eq_some_iff] at links
  obtain ⟨physicalAddress, converted, links⟩ := links
  rw [Brings, converted, Option.elim_some, replay_storeEach]
  by_cases null : physicalAddress = 0
  · simp only [null, ne_eq, not_true_eq_false, if_false, Option.pure_def, Option.some.injEq] at links
    rw [← links, null]
    rfl
  · have kept : (physicalAddress != 0) = true := bne_iff_ne.mpr null
    simp only [ne_eq, null, not_false_eq_true, if_true, Option.pure_def, Option.some.injEq] at links
    rw [← links, linkSetters, kept]
    rfl

theorem brings_create {created : State arch frames × Nat} (creates : state.create = some created) :
    Brings cr3 state [.clear created.2] created.1 := by
  rw [State.create] at creates
  cases left : state.supply with
  | nil => simp [left] at creates
  | cons fresh supply =>
    simp only [left, Option.some.injEq] at creates
    rw [← creates]
    rfl

theorem brings_populate (populated : state.populate table path = some next) :
    Brings cr3 state (state.populateOperations table path) next := by
  induction path generalizing state table with
  | nil =>
    rw [← Option.some.inj populated]
    rfl
  | cons index path ih =>
    rw [State.populate] at populated
    rw [State.populateOperations]
    cases linked : state.lower table index with
    | some below =>
      simp only [linked] at populated
      rw [← Option.some.inj populated]
      rfl
    | none =>
      simp only [linked, Option.bind_eq_bind, Option.bind_eq_some_iff] at populated
      obtain ⟨created, creates, after, links, populated⟩ := populated
      simp only [creates, links, Option.elim_some]
      exact ((brings_create creates).append (brings_setLower links)).append (ih populated)

theorem brings_updatePath {reached : State arch frames × Nat}
    (updated : state.updatePath (fun word => assign (setters word) word) table path = some reached) :
    Brings cr3 state (state.updatePathOperations setters table path) reached.1 := by
  induction path generalizing state table with
  | nil =>
    rw [← Option.some.inj updated]
    rfl
  | cons index path ih =>
    simp only [State.updatePath, Option.bind_eq_bind, Option.bind_eq_some_iff] at updated
    obtain ⟨below, linked, updated⟩ := updated
    simp only [State.updatePathOperations, linked, Option.elim_some]
    refine Brings.append ?_ (ih updated)
    exact replay_storeEach cr3 state.words table index _

theorem brings_access {page : PageIndex} {use : Use arch frames} {leaf : LeafSetters arch frames}
    (assigns : Assigns use leaf)
    (accessed : state.access root page (fun word => assign (setters word) word) use = some next) :
    Brings cr3 state (state.accessOperations root page setters leaf) next := by
  simp only [State.access, Option.bind_eq_bind, Option.bind_eq_some_iff, Option.pure_def, Option.some.injEq] at accessed
  obtain ⟨reached, updated, after, used, same⟩ := accessed
  rw [State.accessOperations, updated, Option.elim_some, ← same]
  refine (brings_updatePath updated).append ?_
  have word := assigns _ _ _ used
  simp only [State.entry] at word
  simp only [Brings, replay_storeEach, State.putEntry, State.entry, State.setWord, word]

theorem brings_mapWith {page : PageIndex} {use : Use arch frames} {leaf : LeafSetters arch frames}
    (assigns : Assigns use leaf)
    (mapped : state.mapWith root page (fun word => assign (setters word) word) use = some next) :
    Brings cr3 state (state.mapWithOperations root page setters leaf) next := by
  simp only [State.mapWith, Option.bind_eq_bind, Option.bind_eq_some_iff] at mapped
  obtain ⟨populated, populates, accessed⟩ := mapped
  rw [State.mapWithOperations, populates, Option.elim_some]
  exact (brings_populate populates).append (brings_access assigns accessed)

theorem brings_forPages {body : State arch frames → Nat → Option (State arch frames)}
    {operations : State arch frames → Nat → List (Operation arch)}
    (round : ∀ state page next, body state page = some next → Brings cr3 state (operations state page) next)
    (looped : forPages arch body limit fuel page state = some next) :
    Brings cr3 state (forPagesOperations arch body operations limit fuel page state) next := by
  induction fuel generalizing page state with
  | zero =>
    rw [forPages] at looped
    rw [forPagesOperations]
    split at looped
    · cases looped
    · rename_i done
      rw [if_neg done, ← Option.some.inj looped]
      rfl
  | succ fuel ih =>
    rw [forPages] at looped
    rw [forPagesOperations]
    split at looped
    · rename_i more
      obtain ⟨middle, stepped, looped⟩ := Option.bind_eq_some_iff.mp looped
      rw [if_pos more, stepped, Option.elim_some]
      exact (round state page middle stepped).append (ih looped)
    · rename_i done
      rw [if_neg done, ← Option.some.inj looped]
      rfl

theorem brings_invalidations (state : State arch frames) (begin limit : Nat) :
    Brings cr3 state (invalidations arch begin limit) state := by
  rw [invalidations]
  induction (invalidatePages arch PageLoop.note [] begin limit).getD [] with
  | nil => rfl
  | cons page rest ih => exact ih

/-- The call is an access with these assignments, after populating the tables. -/
theorem mapPage_eq (root : Nat) (state : State arch frames) (physicalAddress linearAddress : Nat)
    (flags : ProtectionFlags) : ∃ use, Assigns use (mapSetters physicalAddress flags) ∧
      Paging.mapPage root state physicalAddress linearAddress flags = state.mapWith root (locate arch linearAddress)
        (fun word => assign (mapPathSetters flags word) word) use := by
  cases arch with
  | i386 => exact ⟨_, setMappingTo_assigns physicalAddress flags, rfl⟩
  | x86_64 =>
    refine ⟨_, setPageEntryProtection_assigns (setMappingTo_assigns physicalAddress flags), ?_⟩
    rw [Paging.mapPage, X86_64.mapPage, setEntryProtection_eq]
    rfl

theorem mapPageInternal_eq (root : Nat) (flags : ProtectionFlags) (state : State arch frames) (linearAddress : Nat) :
    ∃ use, Assigns use (fillSetters flags) ∧
      mapPageInternal root flags state linearAddress = state.mapWith root (locate arch linearAddress)
        (fun word => assign (mapPathSetters flags word) word) use := by
  cases arch with
  | i386 => exact ⟨_, fillSetters_i386 flags, rfl⟩
  | x86_64 =>
    refine ⟨_, setPageEntryProtection_assigns (setMappingFrom_assigns flags), ?_⟩
    rw [mapPageInternal, X86_64.mapPageInternal, setEntryProtection_eq]
    rfl

theorem setReadonlyPage_eq (root : Nat) (state : State arch frames) (linearAddress : Nat) :
    setReadonlyPage root state linearAddress = state.access root (locate arch linearAddress)
      (fun word => assign (readonlyPathSetters word) word) readonlyEntry := by
  cases arch with
  | i386 => rfl
  | x86_64 =>
    rw [setReadonlyPage, X86_64.setReadonlyPage, setEntryReadOnly_eq]
    rfl

theorem brings_unmanagedMapPage (mapped : unmanagedMapPage base state physicalAddress linearAddress flags = some next) :
    Brings cr3 state (unmanagedMapOperations base state physicalAddress linearAddress flags) next := by
  simp only [unmanagedMapPage, Option.bind_eq_bind, Option.bind_eq_some_iff, Option.pure_def,
    Option.some.injEq] at mapped
  obtain ⟨place, found, pte, address, same⟩ := mapped
  rw [Brings, unmanagedMapOperations, resolvedOperations, found, Option.elim_some, Tlb.Mmu.replay_append,
    replay_storeEach, unmanagedSetters, assign_append, assign_addressSetters address, ← same]
  rfl

theorem brings_protect (locked : (unmanagedActions cr3).protect state page = some next) :
    Brings cr3 state (resolvedOperations cr3 [(setReadwrite · false)] state page) next := by
  simp only [unmanagedActions, Option.bind_eq_bind, Option.bind_eq_some_iff, Option.pure_def,
    Option.some.injEq] at locked
  obtain ⟨place, found, same⟩ := locked
  rw [Brings, resolvedOperations, found, Option.elim_some, replay_storeEach, ← same]
  rfl

theorem brings_fill (filled : (unmanagedActions cr3).fill flags state page = some next) :
    Brings cr3 state ((convertLogicalToPhysicalAddress arch page).elim [] fun physicalAddress =>
      unmanagedMapOperations cr3 state physicalAddress page flags) next := by
  simp only [unmanagedActions, Option.bind_eq_bind, Option.bind_eq_some_iff] at filled
  obtain ⟨physicalAddress, converted, mapped⟩ := filled
  rw [converted, Option.elim_some]
  exact brings_unmanagedMapPage mapped

/-- A call that returns has brought the tables where its operations bring them. -/
theorem replay_operations (cr3 : Nat) {call : SubMap × Call} (performed : perform cr3 state call = some next) :
    (mmu arch cr3).replay state.words (operations cr3 state call) = next.words := by
  change Brings cr3 state (operations cr3 state call) next
  obtain ⟨sub, call⟩ := call
  cases sub with
  | managed =>
    cases call with
    | mapPage physicalAddress linearAddress flags =>
      obtain ⟨use, assigns, same⟩ :=
        mapPage_eq (convertPhysicalToLogicalAddress arch cr3) state physicalAddress linearAddress flags
      refine (brings_mapWith assigns (same.symm.trans performed)).append ?_
      cases arch with
      | i386 => rfl
      | x86_64 => rfl
    | mapPages begin limit flags =>
      simp only [perform, hardwareMap, PhysicalMemoryMap.perform, ManagedPhysicalMemoryMap] at performed
      split at performed
      · refine (brings_forPages (fun state page next mapped => ?_) performed).append (brings_invalidations ..)
        obtain ⟨use, assigns, same⟩ := mapPageInternal_eq (convertPhysicalToLogicalAddress arch cr3) flags state page
        exact brings_mapWith assigns (same.symm.trans mapped)
      · cases performed
    | setReadonly begin limit =>
      refine (brings_forPages (fun state page next locked => ?_) performed).append (brings_invalidations ..)
      exact brings_access readonlySetters_assigns (setReadonlyPage_eq _ state page ▸ locked)
  | unmanaged =>
    cases call with
    | mapPage physicalAddress linearAddress flags => exact brings_unmanagedMapPage performed
    | mapPages begin limit flags =>
      simp only [perform, hardwareMap, PhysicalMemoryMap.perform, GenericUnmanagedPhysicalMemoryMap] at performed
      split at performed
      · exact brings_forPages (fun _ _ _ => brings_fill) performed
      · cases performed
    | setReadonly begin limit =>
      exact (brings_forPages (fun _ _ _ => brings_protect) performed).append (brings_invalidations ..)

end

end FlapjackOS.Paging
