import FlapjackOS.Paging.Operations

namespace FlapjackOS.Paging

open Frames Function Runs

variable {arch : Arch} {frames cr3 : Nat} {state next : State arch frames} {cache : Nat → Option Effective}

/-- Whenever one of the calls returns, the TLB agrees with the tables, whatever it has cached
meanwhile. -/
def StaysCoherent (cr3 : Nat) (state : State arch frames) (cache : Nat → Option Effective) :
    List (SubMap × Call) → Prop
  | [] => True
  | call :: rest => ∀ next, perform cr3 state call = some next →
    ∀ final, (mmu arch cr3).Behaves state.words cache (operations cr3 state call) final →
      (mmu arch cr3).Coherent next.words final ∧ StaysCoherent cr3 next final rest

/-- Calls that are careful whenever they return. -/
theorem staysCoherent_of_legal {Allowed : State arch frames → SubMap × Call → Prop} {calls : List (SubMap × Call)}
    (careful : ∀ state call next, Allowed state call → perform cr3 state call = some next →
      (mmu arch cr3).Careful state.words (operations cr3 state call))
    (coherent : (mmu arch cr3).Coherent state.words cache) (legal : Legal (perform cr3) Allowed state calls) :
    StaysCoherent cr3 state cache calls := by
  induction calls generalizing state cache with
  | nil => trivial
  | cons call rest ih =>
    obtain ⟨allowed, legal⟩ := legal
    intro next performed final behaves
    have kept := (careful state call next allowed performed).coherent behaves fun page entry cached =>
      .inl (coherent page entry cached)
    rw [replay_operations cr3 performed] at kept
    exact ⟨kept, ih kept (legal next performed)⟩

abbrev Careful (cr3 : Nat) : Words arch → List (Operation arch) → Prop :=
  (mmu arch cr3).Careful

section

variable {words changed : Words arch} {table page other : Nat} {path : List Nat}

/-- What the processor reads in the entry of a page. -/
def reading (word : Word arch) : Option Effective :=
  if isPresent word then some ⟨frameAddress word, isReadwrite word, isSupervisor word⟩ else none

/-- The structure at the end of a path, present or not. -/
def follow (words : Words arch) (table : Nat) : List Nat → Nat
  | [] => table
  | index :: path => follow words (convertPhysicalToLogicalAddress arch (getTableAddress (words table index))) path

section
variable (same : ∀ place ∈ resolveReads words table path, changed place.1 place.2 = words place.1 place.2)
include same

theorem follow_congr :
    resolveReads changed table path = resolveReads words table path ∧
      follow changed table path = follow words table path := by
  induction path generalizing table with
  | nil => exact ⟨rfl, rfl⟩
  | cons index path ih =>
    obtain ⟨here, below⟩ := List.forall_mem_cons.mp same
    simp only at here
    simp only [resolveReads, follow, here]
    obtain ⟨reads, reached⟩ := ih below
    exact ⟨congrArg _ reads, reached⟩

/-- The walk depends on the entries on its way and the one at its end. -/
theorem translateFrom_mono (last : ∀ entry, reading (words (follow words table path) leaf) = some entry →
      reading (changed (follow words table path) leaf) = some entry)
    (present : translateFrom words table path leaf = some entry) :
    translateFrom changed table path leaf = some entry := by
  induction path generalizing table entry with
  | nil => exact last entry present
  | cons index path ih =>
    obtain ⟨here, below⟩ := List.forall_mem_cons.mp same
    simp only at here
    simp only [translateFrom, here] at present ⊢
    obtain ⟨stays, present⟩ := Option.ite_none_right_eq_some.mp present
    obtain ⟨deeper, found, rfl⟩ := Option.map_eq_some_iff.mp present
    rw [if_pos stays, ih below last found, Option.map_some]

end

theorem resolve_follow (found : resolve words table path = some reached) : reached = follow words table path := by
  induction path generalizing table with
  | nil =>
    rw [resolve] at found
    split at found
    · cases found
    · exact (Option.some.inj found).symm
  | cons index path ih =>
    simp only [resolve] at found
    split at found
    · cases found
    · split at found
      · cases found
      · exact ih found

section
variable (cr3 : Nat) (words : Words arch) (page : Nat)

/-- The entries above the page table that the walk to a page reads. -/
def upperReads : List (Nat × Nat) :=
  resolveReads words (convertPhysicalToLogicalAddress arch cr3)
    ((locate arch (page * pageSize)).root :: (locate arch (page * pageSize)).path)

/-- The page's own entry. -/
def leafPlace : Nat × Nat :=
  (follow words (convertPhysicalToLogicalAddress arch cr3)
    ((locate arch (page * pageSize)).root :: (locate arch (page * pageSize)).path),
    (locate arch (page * pageSize)).leaf)

def leafWord : Word arch :=
  words (leafPlace cr3 words page).1 (leafPlace cr3 words page).2

/-- The tables with another word in the page's own entry. -/
def setLeaf (word : Word arch) : Words arch :=
  update words (leafPlace cr3 words page).1
    (update (words (leafPlace cr3 words page).1) (leafPlace cr3 words page).2 word)

/-- No other page's walk reads the page's own entry, and no walk passes through it. -/
structure Sheltered : Prop where
  canonical : Canonical arch (page * pageSize)
  passed : ∀ other, Canonical arch (other * pageSize) → leafPlace cr3 words page ∉ upperReads cr3 words other
  sole : ∀ other, Canonical arch (other * pageSize) →
    leafPlace cr3 words other = leafPlace cr3 words page → other = page

end

theorem getPageTableEntry_eq (found : Resolver.getPageTableEntry words cr3 address = some place) :
    place = leafPlace cr3 words (address / pageSize) := by
  rw [Resolver.getPageTableEntry, Option.map_eq_some_iff] at found
  obtain ⟨reached, resolved, rfl⟩ := found
  rw [leafPlace, locate_page, resolve_follow resolved]

/-- A store to the own entry of a sheltered page moves no entry, and changes no other translation. -/
theorem Sheltered.store (sheltered : Sheltered cr3 words page) (word : Word arch)
    (canonical : Canonical arch (other * pageSize)) :
    let changed := setLeaf cr3 words page word
    (∀ place ∈ upperReads cr3 words other, changed place.1 place.2 = words place.1 place.2) ∧
      upperReads cr3 changed other = upperReads cr3 words other ∧
      leafPlace cr3 changed other = leafPlace cr3 words other ∧
      ((other = page → ∀ entry, reading (leafWord cr3 words page) = some entry → reading word = some entry) →
        ∀ entry, translate cr3 words other = some entry → translate cr3 changed other = some entry) := by
  intro changed
  have elsewhere (place : Nat × Nat) (apart : place ≠ leafPlace cr3 words page) :
      changed place.1 place.2 = words place.1 place.2 := by
    simp only [changed, setLeaf, update_apply]
    split
    · rename_i table
      have index : place.2 ≠ (leafPlace cr3 words page).2 := fun index => apart (Prod.ext table index)
      rw [update_of_ne index, table]
    · rfl
  have above : ∀ place ∈ upperReads cr3 words other, changed place.1 place.2 = words place.1 place.2 := by
    intro place member
    apply elsewhere
    rintro rfl
    exact sheltered.passed other canonical member
  obtain ⟨reads, reached⟩ := follow_congr above
  refine ⟨above, reads, ?_, fun kept entry present => ?_⟩
  · rw [leafPlace, reached, leafPlace]
  · rw [translate, if_pos canonical] at present ⊢
    refine translateFrom_mono above (fun entry read => ?_) present
    change reading (changed (leafPlace cr3 words other).1 (leafPlace cr3 words other).2) = some entry
    by_cases same : other = page
    · subst same
      simp only [changed, setLeaf, update_self]
      exact kept rfl entry read
    · rw [elsewhere (leafPlace cr3 words other) fun place => same (sheltered.sole other canonical place)]
      exact read

theorem Sheltered.keep (sheltered : Sheltered cr3 words page) (also : Sheltered cr3 words other)
    (word : Word arch) : Sheltered cr3 (setLeaf cr3 words page word) other := by
  obtain ⟨-, -, place, -⟩ := sheltered.store word also.canonical
  refine ⟨also.canonical, ?_, ?_⟩
  · intro third canonical
    obtain ⟨-, reads, -⟩ := sheltered.store word canonical
    rw [reads, place]
    exact also.passed third canonical
  · intro third canonical
    obtain ⟨-, -, same, -⟩ := sheltered.store word canonical
    rw [same, place]
    exact also.sole third canonical

end

section

variable {words : Words arch} {pages : List Nat} {page address : Nat} {rest : List (Operation arch)}

/-- The pages are all sheltered. -/
def AllSheltered (cr3 : Nat) (words : Words arch) (pages : List Nat) : Prop :=
  ∀ page ∈ pages, Sheltered cr3 words (page / pageSize)

/-- No assignment changes what the processor reads in the entry while it is present. -/
def KeepsReading : List (Setter arch) → Word arch → Prop
  | [], _ => True
  | setter :: rest, word => (∀ entry, reading word = some entry → reading (setter word) = some entry) ∧
    KeepsReading rest (setter word)

/-- Stores to the entry of a page that is invalidated later or stays as it is. -/
theorem careful_storeEach (sheltered : Sheltered cr3 words page) {setters : List (Setter arch)} {word : Word arch}
    (reads : leafWord cr3 words page = word)
    (own : (∃ operation ∈ rest, (mmu arch cr3).drops operation page = true) ∨ KeepsReading setters word)
    (later : Careful cr3 ((mmu arch cr3).replay words
      (storeEach (leafPlace cr3 words page).1 (leafPlace cr3 words page).2 setters word)) rest) :
    Careful cr3 words
      (storeEach (leafPlace cr3 words page).1 (leafPlace cr3 words page).2 setters word ++ rest) := by
  induction setters generalizing words word with
  | nil => exact later
  | cons setter setters ih =>
    have place := (sheltered.store (setter word) sheltered.canonical).2.2.1
    refine ⟨fun other entry kept present => ?_, ?_⟩
    · have canonical : Canonical arch (other * pageSize) := by
        by_contra outside
        cases (if_neg outside).symm.trans present
      refine (sheltered.store (setter word) canonical).2.2.2 (fun same => ?_) entry present
      subst same
      rcases own with ⟨operation, found, drops⟩ | keeps
      · rw [kept operation (List.mem_append_right _ found)] at drops
        cases drops
      · exact reads ▸ keeps.1
    · have next : leafWord cr3 (setLeaf cr3 words page (setter word)) page = setter word := by
        rw [leafWord, place, setLeaf, update_self, update_self]
      have again := ih (sheltered.keep sheltered (setter word)) next (own.imp id (·.2))
      rw [place] at again
      exact again later

/-- Stores through the resolver to the entry of a page that is invalidated later. -/
theorem careful_resolved (sheltered : AllSheltered cr3 state.words pages) (member : page ∈ pages)
    (setters : List (Setter arch)) :
    let stores := resolvedOperations cr3 setters state page
    AllSheltered cr3 ((mmu arch cr3).replay state.words stores) pages ∧ ∀ rest,
      (∃ operation ∈ rest, (mmu arch cr3).drops operation (page / pageSize) = true) →
      Careful cr3 ((mmu arch cr3).replay state.words stores) rest → Careful cr3 state.words (stores ++ rest) := by
  simp only [resolvedOperations]
  cases found : Resolver.getPageTableEntry state.words cr3 page with
  | none => exact ⟨sheltered, fun _ _ later => later⟩
  | some place =>
    rw [Option.elim_some, getPageTableEntry_eq found]
    refine ⟨fun other also => ?_, fun rest dropped => careful_storeEach (sheltered page member) rfl (.inl dropped)⟩
    rw [replay_storeEach]
    exact (sheltered page member).keep (sheltered other also) _

/-- Rounds over pages, each of which is careful if what comes after it is. -/
theorem careful_run (Good : State arch frames → Prop) {body : State arch frames → Nat → Option (State arch frames)}
    {operations : State arch frames → Nat → List (Operation arch)} {final : State arch frames}
    (round : ∀ state page next, page ∈ pages → Good state → body state page = some next → Good next ∧
      ∀ later, rest <:+ later → Careful cr3 next.words later →
        Careful cr3 state.words (operations state page ++ later))
    (good : Good state) (ran : run body state pages = some final)
    (done : Careful cr3 final.words rest) :
    Careful cr3 state.words (runOperations body operations state pages ++ rest) ∧ Good final := by
  induction pages generalizing state with
  | nil =>
    obtain rfl := Option.some.inj ran
    exact ⟨done, good⟩
  | cons page pages ih =>
    obtain ⟨next, stepped, ran⟩ := Option.bind_eq_some_iff.mp ran
    obtain ⟨good, here⟩ := round state page next List.mem_cons_self good stepped
    obtain ⟨careful, final⟩ :=
      ih (fun state page next member => round state page next (List.mem_cons_of_mem _ member)) good ran
    refine ⟨?_, final⟩
    rw [runOperations, stepped, Option.elim_some, List.append_assoc]
    exact here _ (List.suffix_append _ rest) careful

/-- The addresses that the call comes to. -/
def Call.addresses : Call → List Nat
  | .mapPage _ linearAddress _ => [linearAddress]
  | .mapPages begin limit _ => visitedPages begin limit
  | .setReadonly begin limit => visitedPages begin limit

theorem invalidations_eq (terminates : Terminates arch begin limit) (small : begin < arch.modulus) :
    invalidations arch begin limit = (visitedPages begin limit).map .invalidate := by
  have noted : run PageLoop.note [] (visitedPages begin limit) = some (visitedPages begin limit) := by
    have all := run_note id [] (visitedPages begin limit)
    rw [List.map_id, List.nil_append] at all
    exact all
  rw [invalidations, invalidatePages, forPages_eq small, if_pos terminates, noted]
  rfl

theorem drops_invalidate (linearAddress : Nat) :
    (mmu arch cr3).drops (.invalidate linearAddress) (linearAddress / pageSize) = true :=
  decide_eq_true rfl

theorem careful_invalidations (words : Words arch) (addresses : List Nat) :
    Careful cr3 words (addresses.map .invalidate) := by
  induction addresses with
  | nil => trivial
  | cons address addresses ih => exact ⟨fun _ _ _ present => present, ih⟩

/-- The page is invalidated right after the stores to its entry. -/
theorem careful_unmanagedMap (sheltered : AllSheltered cr3 state.words pages) (member : linearAddress ∈ pages)
    (physicalAddress : Nat) (flags : ProtectionFlags) :
    let stores := unmanagedMapOperations cr3 state physicalAddress linearAddress flags
    AllSheltered cr3 ((mmu arch cr3).replay state.words stores) pages ∧ ∀ rest,
      Careful cr3 ((mmu arch cr3).replay state.words stores) rest → Careful cr3 state.words (stores ++ rest) := by
  simp only [unmanagedMapOperations, Tlb.Mmu.replay_append, List.append_assoc]
  obtain ⟨kept, careful⟩ := careful_resolved sheltered member (unmanagedSetters physicalAddress flags)
  refine ⟨kept, fun rest later => careful _ ⟨_, List.mem_cons_self, drops_invalidate linearAddress⟩ ?_⟩
  exact ⟨fun _ _ _ present => present, later⟩

theorem loop_ended {body : State arch frames → Nat → Option (State arch frames)}
    (begins : begin < arch.modulus) (looped : forPages arch body limit arch.modulus begin state = some next) :
    Terminates arch begin limit ∧ run body state (visitedPages begin limit) = some next := by
  rw [forPages_eq begins] at looped
  split at looped
  case isTrue terminates => exact ⟨terminates, looped⟩
  case isFalse => cases looped

/-- A loop over the pages of a range, which are all invalidated at the end. -/
theorem careful_loop (Good : State arch frames → Prop) {body : State arch frames → Nat → Option (State arch frames)}
    {operations : State arch frames → Nat → List (Operation arch)} (begins : begin < arch.modulus)
    (looped : forPages arch body limit arch.modulus begin state = some next)
    (round : ∀ state page next, page ∈ visitedPages begin limit → Good state → body state page = some next →
      Good next ∧ ∀ later, .invalidate page ∈ later → Careful cr3 next.words later →
        Careful cr3 state.words (operations state page ++ later)) (good : Good state) :
    Careful cr3 state.words (forPagesOperations arch body operations limit arch.modulus begin state ++
      invalidations arch begin limit) ∧ Good next := by
  obtain ⟨terminates, ran⟩ := loop_ended begins looped
  rw [forPagesOperations_eq_run terminates begins terminates.enough, invalidations_eq terminates begins]
  refine careful_run Good (fun state page next member good stepped => ?_) good ran (careful_invalidations next.words _)
  obtain ⟨kept, careful⟩ := round state page next member good stepped
  exact ⟨kept, fun later suffix => careful later (suffix.subset (List.mem_map_of_mem member))⟩

/-- The unmanaged map is careful with sheltered pages, which stay sheltered. -/
theorem unmanaged_careful {call : Call} (small : call.Small arch)
    (sheltered : AllSheltered cr3 state.words pages) (visits : call.addresses ⊆ pages)
    (performed : perform cr3 state (.unmanaged, call) = some next) :
    Careful cr3 state.words (unmanagedOperations cr3 state call) ∧
      AllSheltered cr3 next.words pages := by
  cases call with
  | mapPage physicalAddress linearAddress flags =>
    have member : linearAddress ∈ pages := visits List.mem_cons_self
    have reached : (mmu arch cr3).replay _ _ = next.words := brings_unmanagedMapPage performed
    obtain ⟨kept, careful⟩ := careful_unmanagedMap sheltered member physicalAddress flags
    have alone := careful [] trivial
    rw [List.append_nil] at alone
    exact ⟨alone, reached ▸ kept⟩
  | mapPages begin limit flags =>
    simp only [perform, hardwareMap, PhysicalMemoryMap.perform, GenericUnmanagedPhysicalMemoryMap] at performed
    split at performed
    · obtain ⟨terminates, ran⟩ := loop_ended small.1 performed
      rw [unmanagedOperations, forPagesOperations_eq_run terminates small.1 terminates.enough,
        ← List.append_nil (runOperations _ _ _ _)]
      refine careful_run (AllSheltered cr3 ·.words pages) (fun state page next member sheltered filled => ?_)
        sheltered ran trivial
      have reached : (mmu arch cr3).replay _ _ = next.words := brings_fill filled
      cases converted : convertLogicalToPhysicalAddress arch page with
      | none =>
        rw [converted] at reached
        exact ⟨reached ▸ sheltered, fun later _ careful => (reached ▸ careful :)⟩
      | some physicalAddress =>
        rw [converted] at reached
        obtain ⟨kept, careful⟩ := careful_unmanagedMap sheltered (visits member) physicalAddress flags
        exact ⟨reached ▸ kept, fun rest _ later => careful rest (reached ▸ later)⟩
    · cases performed
  | setReadonly begin limit =>
    refine careful_loop (AllSheltered cr3 ·.words pages) small.1 performed
      (fun state page next member sheltered locked => ?_) sheltered
    have reached : (mmu arch cr3).replay _ _ = next.words := brings_protect locked
    obtain ⟨kept, careful⟩ := careful_resolved sheltered (visits member) [(setReadwrite · false)]
    exact ⟨reached ▸ kept, fun rest dropped later => careful rest ⟨_, dropped, drops_invalidate page⟩ (reached ▸ later)⟩

/-- Assignments that leave the entry as it is. -/
theorem careful_idle {table index : Nat} {setters : List (Setter arch)}
    (idle : ∀ setter ∈ setters, setter (words table index) = words table index) :
    assign setters (words table index) = words table index ∧
      ∀ rest, Careful cr3 words rest →
        Careful cr3 words (storeEach table index setters (words table index) ++ rest) := by
  induction setters with
  | nil => exact ⟨rfl, fun _ careful => careful⟩
  | cons setter setters ih =>
    obtain ⟨here, idle⟩ := List.forall_mem_cons.mp idle
    obtain ⟨assigned, careful⟩ := ih idle
    have same : (mmu arch cr3).apply (.store table index (words table index)) words = words := by
      simp [mmu, Operation.apply]
    rw [assign, storeEach, here]
    refine ⟨assigned, fun rest later => ?_⟩
    rw [List.cons_append, Careful, Tlb.Mmu.Careful, same]
    exact ⟨fun _ _ _ present => present, careful rest later⟩

/-- The controllers go where the processor's walk goes, through entries that agree with the call. -/
def Settled (Agrees : Word arch → Prop) (state : State arch frames) (table : Nat) : List Nat → Prop
  | [] => True
  | index :: path =>
    let below := convertPhysicalToLogicalAddress arch (getTableAddress (state.words table index))
    Agrees (state.words table index) ∧ state.lower table index = some below ∧ Settled Agrees state below path

/-- The pages are sheltered, and the way to them is settled. -/
structure Ready (Agrees : Word arch → Prop) (cr3 : Nat) (pages : List Nat) (state : State arch frames) : Prop where
  sheltered : AllSheltered cr3 state.words pages
  settled : ∀ address ∈ pages, Settled Agrees state (convertPhysicalToLogicalAddress arch cr3)
    ((locate arch address).root :: (locate arch address).path)

section
variable {Agrees : Word arch → Prop} {setters : Word arch → List (Setter arch)} {use : Use arch frames}
  {leaf : LeafSetters arch frames}

theorem Settled.congr (settled : Settled Agrees state table path) (lower : next.lower = state.lower)
    (same : ∀ place ∈ resolveReads state.words table path, next.words place.1 place.2 = state.words place.1 place.2) :
    Settled Agrees next table path := by
  induction path generalizing table with
  | nil => trivial
  | cons index path ih =>
    obtain ⟨agrees, linked, below⟩ := settled
    obtain ⟨here, deeper⟩ := List.forall_mem_cons.mp same
    simp only at here
    simp only [Settled, here, lower]
    exact ⟨agrees, linked, ih below deeper⟩

/-- There is nothing to populate. -/
theorem Settled.mapWith {page : PageIndex} {change : Word arch → Word arch}
    (settled : Settled Agrees state root (page.root :: page.path)) :
    state.mapWith root page change use = state.access root page change use ∧
      state.mapWithOperations root page setters leaf = state.accessOperations root page setters leaf := by
  obtain ⟨-, linked, -⟩ := settled
  simp [State.mapWith, State.mapWithOperations, State.populate, State.populateOperations, linked]

variable (idle : ∀ word, Agrees word → ∀ setter ∈ setters word, setter word = word)
include idle

theorem Settled.updatePath (cr3 : Nat) (settled : Settled Agrees state table path) :
    state.updatePath (fun word => assign (setters word) word) table path =
        some (state, follow state.words table path) ∧
      ∀ rest, Careful cr3 state.words rest →
        Careful cr3 state.words (state.updatePathOperations setters table path ++ rest) := by
  induction path generalizing table with
  | nil => exact ⟨rfl, fun _ careful => careful⟩
  | cons index path ih =>
    obtain ⟨agrees, linked, below⟩ := settled
    obtain ⟨reached, careful⟩ := ih below
    obtain ⟨assigned, stores⟩ := careful_idle (idle _ agrees)
    have kept : state.setWord table index (state.words table index) = state := by simp [State.setWord]
    simp only [State.updatePath, State.updatePathOperations, assigned, kept, linked, Option.bind_eq_bind,
      Option.bind_some, Option.elim_some, List.append_assoc]
    exact ⟨reached, fun rest later => stores _ (careful rest later)⟩

/-- An access to one of the pages that is invalidated later or stays as it is. -/
theorem Ready.access (ready : Ready Agrees cr3 pages state) (member : address ∈ pages) (assigns : Assigns use leaf)
    (accessed : state.access (convertPhysicalToLogicalAddress arch cr3) (locate arch address)
      (fun word => assign (setters word) word) use = some next) :
    Ready Agrees cr3 pages next ∧ ∀ rest,
      ((∃ operation ∈ rest, (mmu arch cr3).drops operation (address / pageSize) = true) ∨
        ∀ entry : PageEntry arch, entry.pte = leafWord cr3 state.words (address / pageSize) →
          KeepsReading (leaf state.allocator entry) entry.pte) →
      Careful cr3 next.words rest → Careful cr3 state.words
        (state.accessOperations (convertPhysicalToLogicalAddress arch cr3) (locate arch address) setters leaf
          ++ rest) := by
  obtain ⟨reached, careful⟩ := (ready.settled address member).updatePath idle cr3
  have sheltered := ready.sheltered address member
  rw [← locate_page arch address] at accessed reached careful ⊢
  simp only [State.access, reached, Option.bind_eq_bind, Option.bind_some, Option.bind_eq_some_iff,
    Option.pure_def, Option.some.injEq] at accessed
  obtain ⟨after, used, same⟩ := accessed
  have written : next.words = setLeaf cr3 state.words (address / pageSize) after.2.pte := same ▸ rfl
  refine ⟨⟨fun other also => ?_, fun other also => ?_⟩, fun rest own later => ?_⟩
  · rw [written]
    exact sheltered.keep (ready.sheltered other also) _
  · have above := (sheltered.store after.2.pte (ready.sheltered other also).canonical).1
    rw [upperReads, locate_page, ← written] at above
    exact (ready.settled other also).congr (same ▸ rfl) above
  · rw [State.accessOperations, reached, Option.elim_some, List.append_assoc]
    refine careful _ (careful_storeEach sheltered rfl (own.imp id fun keeps => keeps _ rfl) ?_)
    convert later
    rw [written, assigns _ _ _ used]
    exact replay_storeEach ..

end

/-- An entry that gives the permissions that the call asks for. -/
def Call.Agrees (word : Word arch) : Call → Prop
  | .mapPage _ _ flags | .mapPages _ _ flags =>
    isReadwrite word = flags.writable ∧ isSupervisor word = flags.supervisor
  | .setReadonly _ _ => arch = .x86_64 → isReadwrite word = false

/-- The pages of the call are sheltered. On the managed map, moreover, the way to them is settled, and what
`map_page` maps on x86_64 has the permissions already, mapped or not. -/
def Spares (cr3 : Nat) (state : State arch frames) : SubMap × Call → Prop
  | (.unmanaged, call) => call.Small arch ∧ AllSheltered cr3 state.words call.addresses
  | (.managed, call) => call.Small arch ∧ Ready call.Agrees cr3 call.addresses state ∧
    (arch = .x86_64 → ∀ physicalAddress linearAddress flags, call = .mapPage physicalAddress linearAddress flags →
      call.Agrees (leafWord cr3 state.words (linearAddress / pageSize)))

theorem mapPath_idle {flags : ProtectionFlags} (word : Word arch)
    (agrees : isReadwrite word = flags.writable ∧ isSupervisor word = flags.supervisor) :
    ∀ setter ∈ mapPathSetters flags word, setter word = word := by
  have write : setReadwrite word flags.writable = word :=
    (Bits.setFlag_eq_self_iff (flag_inside arch (by decide))).mpr agrees.1
  have user : setSupervisor word flags.supervisor = word :=
    (Bits.setFlag_eq_self_iff (flag_inside arch (by decide))).mpr agrees.2
  cases arch <;> simp only [mapPathSetters] <;> try split
  all_goals simp [tableProtectionSetters, write, user]

theorem readonlyPath_idle (word : Word arch) (agrees : arch = .x86_64 → isReadwrite word = false) :
    ∀ setter ∈ readonlyPathSetters word, setter word = word := by
  cases arch with
  | i386 => simp [readonlyPathSetters]
  | x86_64 =>
    simp only [readonlyPathSetters]
    split <;> simp [setReadwrite_false_eq_iff.mpr (agrees rfl)]

theorem testFlag_clearFrameAddress {word : Word arch} (low : bit < 12) :
    Bits.testFlag (clearFrameAddress word) bit = Bits.testFlag word bit := by
  have cleared : clearFrameAddress word = Bits.put (~~~ addressZeroMask arch) 0 word := by
    simp [clearFrameAddress_eq, Bits.put]
  rw [Bits.testFlag, cleared, Bits.put_and_of_apart (mask_low low), Bits.testFlag]

theorem testFlag_setFrameAddress {word : Word arch} (low : bit < 12) :
    Bits.testFlag ((setFrameAddress word address).getD word) bit = Bits.testFlag word bit := by
  rw [setFrameAddress_eq]
  split
  · exact testFlag_setTableAddress low
  · rfl

/-- On x86_64, where `map_page` invalidates nothing. -/
theorem mapSetters_keep {entry : PageEntry .x86_64} {flags : ProtectionFlags} (physicalAddress : Nat)
    (allocator : PageFrameAllocator frames)
    (agrees : isReadwrite entry.pte = flags.writable ∧ isSupervisor entry.pte = flags.supervisor) :
    KeepsReading (mapSetters physicalAddress flags allocator entry) entry.pte := by
  have present : Bits.testFlag entry.pte 0 = entry.isPresent := rfl
  simp only [isReadwrite, isSupervisor, readwriteBit, supervisorBit] at agrees
  rw [mapSetters]
  generalize entry.isPresent = mapped at present ⊢
  cases mapped
  all_goals
    simp (disch := decide) [KeepsReading, mappingSetters, pageFrameSetters, addressSetters, protectionSetters, reading,
      isPresent, isReadwrite, isSupervisor, setPresent, setReadwrite, setSupervisor, setGlobal, presentBit,
      readwriteBit, supervisorBit, globalBit, testFlag_setFlag_low, testFlag_clearFrameAddress,
      testFlag_setFrameAddress, frameAddress_setFlag, agrees, present]

/-- The managed map is careful with such pages. -/
theorem managed_careful {call : Call} (spares : Spares cr3 state (.managed, call))
    (performed : perform cr3 state (.managed, call) = some next) :
    Careful cr3 state.words
      (managedOperations (convertPhysicalToLogicalAddress arch cr3) state call) := by
  obtain ⟨small, ready, own⟩ := spares
  cases call with
  | mapPage physicalAddress linearAddress flags =>
    obtain ⟨use, assigns, same⟩ :=
      mapPage_eq (convertPhysicalToLogicalAddress arch cr3) state physicalAddress linearAddress flags
    have member : linearAddress ∈ [linearAddress] := List.mem_singleton_self _
    obtain ⟨maps, operations⟩ := (ready.settled linearAddress member).mapWith
    rw [managedOperations, operations]
    refine (ready.access mapPath_idle member assigns (maps ▸ same.symm.trans performed)).2 _ ?_ ?_
    · cases arch with
      | i386 => exact .inl ⟨_, List.mem_cons_self, drops_invalidate linearAddress⟩
      | x86_64 => exact .inr fun entry read => mapSetters_keep _ _ (read ▸ own rfl _ _ _ rfl)
    · cases arch with
      | i386 => exact careful_invalidations next.words [linearAddress]
      | x86_64 => trivial
  | mapPages begin limit flags =>
    simp only [perform, hardwareMap, PhysicalMemoryMap.perform, ManagedPhysicalMemoryMap] at performed
    split at performed
    · refine (careful_loop (Ready _ cr3 _) small.1 performed (fun state page next member ready mapped => ?_) ready).1
      obtain ⟨use, assigns, same⟩ := mapPageInternal_eq (convertPhysicalToLogicalAddress arch cr3) flags state page
      obtain ⟨maps, operations⟩ := (ready.settled page member).mapWith
      rw [operations]
      obtain ⟨kept, careful⟩ := ready.access mapPath_idle member assigns (maps ▸ same.symm.trans mapped)
      exact ⟨kept, fun later dropped => careful later (.inl ⟨_, dropped, drops_invalidate page⟩)⟩
    · cases performed
  | setReadonly begin limit =>
    refine (careful_loop (Ready _ cr3 _) small.1 performed (fun state page next member ready locked => ?_) ready).1
    obtain ⟨kept, careful⟩ := ready.access readonlyPath_idle member readonlySetters_assigns
      ((setReadonlyPage_eq _ state page).symm.trans locked)
    exact ⟨kept, fun later dropped => careful later (.inl ⟨_, dropped, drops_invalidate page⟩)⟩

theorem spares_careful (call : SubMap × Call) (spares : Spares cr3 state call)
    (performed : perform cr3 state call = some next) :
    Careful cr3 state.words (operations cr3 state call) := by
  obtain ⟨sub, call⟩ := call
  cases sub with
  | managed => exact managed_careful spares performed
  | unmanaged => exact (unmanaged_careful spares.1 spares.2 (List.Subset.refl _) performed).1

theorem unmanaged_legal {calls : List Call} (sheltered : AllSheltered cr3 state.words pages)
    (small : ∀ call ∈ calls, call.Small arch) (visits : ∀ call ∈ calls, call.addresses ⊆ pages) :
    Legal (perform cr3) (Spares cr3) state (calls.map (SubMap.unmanaged, ·)) := by
  induction calls generalizing state with
  | nil => trivial
  | cons call rest ih =>
    obtain ⟨smallHere, small⟩ := List.forall_mem_cons.mp small
    obtain ⟨visitsHere, visits⟩ := List.forall_mem_cons.mp visits
    refine ⟨⟨smallHere, fun page member => sheltered page (visitsHere member)⟩, fun next performed => ?_⟩
    exact ih (unmanaged_careful smallHere sheltered visitsHere performed).2 small visits

/-- The unmanaged map keeps the TLB in agreement with the tables as long as the entries of the pages
it is asked for are no other pages' entries too. -/
theorem unmanaged_staysCoherent {calls : List Call} (coherent : (mmu arch cr3).Coherent state.words cache)
    (sheltered : AllSheltered cr3 state.words pages) (small : ∀ call ∈ calls, call.Small arch)
    (visits : ∀ call ∈ calls, call.addresses ⊆ pages) :
    StaysCoherent cr3 state cache (calls.map (SubMap.unmanaged, ·)) :=
  staysCoherent_of_legal (fun _ call _ => spares_careful call) coherent (unmanaged_legal sheltered small visits)

end

section

open PageFrameAllocator (sampleAllocator)

theorem sampleTable_follow (index : Nat) : follow sampleTable.words 0xC0001000 [index] =
    if index = 0 then 0xC0002000 else 0xC0000000 := by
  by_cases first : index = 0
  · subst first
    decide +kernel
  · have empty : sampleTable.words 0xC0001000 index = 0 := by
      simp [sampleTable, first]
    rw [if_neg first, follow, empty]
    decide +kernel

theorem sampleTable_leafPlace (page : Nat) : leafPlace 0x1000 sampleTable.words page =
    (if page / 1024 = 0 then 0xC0002000 else 0xC0000000, page % 1024) := by
  have root : page * pageSize / 2 ^ 22 = page / 1024 := by
    simp only [pageSize]
    omega
  have leaf : page * pageSize / 2 ^ 12 = page := Nat.mul_div_cancel _ (by decide)
  rw [leafPlace, locate_i386, root, leaf]
  exact congrArg (·, page % 1024) (sampleTable_follow _)

theorem sampleTable_sheltered (small : page < 1024) : Sheltered 0x1000 sampleTable.words page := by
  have table : page / 1024 = 0 := by omega
  refine ⟨?_, ?_, ?_⟩
  · simp only [Canonical, pageSize]
    omega
  · intro other _ read
    rw [sampleTable_leafPlace, if_pos table, upperReads] at read
    have same : 0xC0002000 = convertPhysicalToLogicalAddress .i386 0x1000 :=
      congrArg Prod.fst (List.mem_singleton.mp read)
    exact absurd same (by decide)
  · intro other _ same
    rw [sampleTable_leafPlace, sampleTable_leafPlace, if_pos table] at same
    obtain ⟨tables, leaves⟩ := Prod.mk.inj same
    have first : other / 1024 = 0 := by
      by_contra different
      rw [if_neg different] at tables
      exact absurd tables (by decide)
    omega

theorem coherent_empty (words : Words arch) : (mmu arch cr3).Coherent words (fun _ => none) := by
  intro page entry cached
  cases cached

theorem sampleTable_allSheltered : AllSheltered 0x1000 sampleTable.words [0x1000, 0x2000] := by
  intro page member
  apply sampleTable_sheltered
  revert page
  decide

theorem protected_pages_coherent :
    StaysCoherent 0x1000 sampleTable (fun _ => none) ([.setReadonly 0x1000 0x3000].map (SubMap.unmanaged, ·)) :=
  unmanaged_staysCoherent (coherent_empty _) sampleTable_allSheltered (by decide) (by decide)

end

end FlapjackOS.Paging
