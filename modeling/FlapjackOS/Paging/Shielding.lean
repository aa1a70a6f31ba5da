import FlapjackOS.Paging.Exchange
import FlapjackOS.Paging.Permission

/-! Which pages the processor lets user mode access after a run of mapping calls. The bit
that the calls set for `SUPERVISOR` is the U/S bit, which means user when it is set. -/

namespace FlapjackOS.Paging

open Frames Runs Simulation

variable {arch : Arch} {frames : Nat} {state final : State arch frames}
  {space after : Space arch frames} {root table leaf : Nat} {path pool : List Nat}
  {words origin : Words arch} {page : PageIndex} {pages : List PageIndex}
  {flags : ProtectionFlags} {call : Call} {calls : List Call}

/-- Whether user mode may access a page: all entries on the walk are present and have the
U/S bit set. -/
def userAccess (words : Words arch) (table : Nat) : List Nat → Nat → Bool
  | [], leaf => isPresent (words table leaf) && isSupervisor (words table leaf)
  | index :: path, leaf =>
    let word := words table index
    isPresent word && isSupervisor word &&
      userAccess words (convertPhysicalToLogicalAddress arch (getTableAddress word)) path leaf

def userAccessPage (words : Words arch) (root : Nat) (page : PageIndex) : Bool :=
  userAccess words root (page.root :: page.path) page.leaf

/-- The pages that have been mapped, in order, with the flags of the call. -/
abbrev History := List (PageIndex × ProtectionFlags)

/-- The pages that the call maps. -/
def Call.mappings (arch : Arch) : Call → History
  | .mapPage _ linearAddress flags => [(locate arch linearAddress, flags)]
  | .mapPages begin limit flags => (visitedPages begin limit).map fun page => (locate arch page, flags)
  | .setReadonly _ _ => []

/-- `map_page` and `map_pages`. -/
def Call.Maps : Call → Prop
  | .setReadonly _ _ => False
  | _ => True

namespace History

/-- The flags of the last mapping of a page that meets the condition. -/
def last (history : History) (meets : PageIndex → Bool) : Option ProtectionFlags :=
  ((history.filter (meets ·.1)).getLast?).map Prod.snd

/-- The flags of the last mapping of the page. -/
def lastOf (history : History) (page : PageIndex) : Option ProtectionFlags :=
  history.last (· = page)

/-- The flags of the last mapping of any page below an entry of the top level. -/
def lastBelow (history : History) (index : Nat) : Option ProtectionFlags :=
  history.last (·.root = index)

end History

/-- No page whose last mapping carried `SUPERVISOR` can be accessed from user mode. -/
def Shielded (root : Nat) (state : State arch frames) (history : History) : Prop :=
  ∀ page flags, history.lastOf page = some flags → flags.supervisor = true →
    userAccessPage state.words root page = false

/-- Below the same entry of the top level another page has been mapped since then, without
`SUPERVISOR`. -/
def Overridden (history : History) : Prop :=
  ∀ page flags, history.lastOf page = some flags → flags.supervisor = true →
    ∃ later, history.lastBelow page.root = some later ∧ later.supervisor = false

/-- User mode may access what could be written to if the bits were exchanged. -/
theorem userAccess_iff : userAccess words table path leaf = true ↔
    (walk (fun t i => exchange (words t i)) table path leaf).map Prod.fst = some true := by
  induction path generalizing table with
  | nil =>
    simp only [userAccess, walk, readEntry, isPresent_exchange, isReadwrite_exchange]
    cases isPresent (words table leaf) with
    | false => simp
    | true => simp
  | cons index path ih =>
    simp only [userAccess, walk, isPresent_exchange, isReadwrite_exchange, getTableAddress_exchange,
      Bool.and_eq_true, ih]
    cases isPresent (words table index) with
    | false => simp
    | true =>
      simp only [true_and, if_true, Option.map_map]
      cases walk _ _ path leaf with
      | none => simp
      | some result => simp [restrict]

theorem History.last_append (first second : History) (meets : PageIndex → Bool) :
    History.last (first ++ second) meets = (second.last meets).or (first.last meets) := by
  simp only [last, List.filter_append, List.getLast?_append]
  cases (second.filter (meets ·.1)).getLast? with
  | none => rfl
  | some _ => rfl

theorem History.last_map (pages : List PageIndex) (flags : ProtectionFlags) (meets : PageIndex → Bool) :
    History.last (pages.map fun page => (page, flags)) meets =
      if pages.any meets then some flags else none := by
  induction pages with
  | nil => rfl
  | cons page rest ih =>
    rw [List.map_cons, ← List.singleton_append, last_append, ih, List.any_cons]
    cases here : meets page with
    | false => simp [last, here]
    | true => cases rest.any meets <;> simp [last, here]

/-- The permission in the tables is that of the last mapping. -/
structure Painted (history : History) (space : Space arch frames) : Prop where
  upper : ∀ index, space.upper index = (history.lastBelow index).map ProtectionFlags.supervisor
  leaf : ∀ page flags, history.lastOf page = some flags → space.leaf page = some flags.supervisor

theorem Painted.filled {history : History} (painted : Painted history space)
    (filled : Space.Filled flags.supervisor pages space after) :
    Painted (history ++ pages.map fun page => (page, flags)) after where
  upper index := by
    rw [filled.upper, painted.upper, History.lastBelow, History.lastBelow, History.last_append,
      History.last_map]
    by_cases below : index ∈ pages.map PageIndex.root
    · have visited : pages.any (fun page => decide (page.root = index)) = true := by
        simpa [List.any_eq_true] using below
      rw [if_pos below, if_pos visited]
      rfl
    · have missed : ¬ pages.any (fun page => decide (page.root = index)) = true := by
        simpa [List.any_eq_true] using below
      rw [if_neg below, if_neg missed, Option.none_or]
  leaf page flags last := by
    rw [History.lastOf, History.last_append, History.last_map] at last
    rw [filled.leaf]
    by_cases member : page ∈ pages
    · have visited : pages.any (fun other => decide (other = page)) = true := by simpa using member
      rw [if_pos visited] at last
      cases last
      rw [if_pos member]
    · have missed : ¬ pages.any (fun other => decide (other = page)) = true := by simpa using member
      rw [if_neg missed, Option.none_or] at last
      rw [if_neg member]
      exact painted.leaf page flags last

section
variable {history : History}

/-- With the bits exchanged, the state stands for a space with the permissions of the last
mappings. -/
def Marked (root : Nat) (pool : List Nat) (origin : Words arch) (history : History)
    (state : State arch frames) : Prop :=
  ∃ space, Stands root pool origin state.exchange space ∧ space.Sound ∧ Painted history space

/-- The call with the flags exchanged. -/
def Call.exchange : Call → Call
  | .mapPage physicalAddress linearAddress flags => .mapPage physicalAddress linearAddress flags.exchange
  | .mapPages begin limit flags => .mapPages begin limit flags.exchange
  | .setReadonly begin limit => .setReadonly begin limit

theorem Call.Small.exchange (small : call.Small arch) : call.exchange.Small arch := by
  cases call <;> exact small

theorem step_exchange (maps : call.Maps) (root : Nat) (state : State arch frames) :
    step root state.exchange call.exchange = (step root state call).map State.exchange := by
  cases call with
  | mapPage physicalAddress linearAddress flags =>
    have uses := @mapEntry_twins arch frames physicalAddress flags
    cases arch with
    | i386 => exact State.mapWith_exchange (setTableProtection_exchange · flags) uses state root _
    | x86_64 => exact State.mapWith_exchange (setEntryProtection_exchange · flags) uses state root _
  | mapPages begin limit flags =>
    simp only [step, Call.exchange, mapPages]
    split
    · have uses := @fillEntry_twins arch frames flags
      refine forPages_map (fun state page => ?_) _ _ _ _
      cases arch with
      | i386 => exact State.mapWith_exchange (setTableProtection_exchange · flags) uses state root _
      | x86_64 => exact State.mapWith_exchange (setEntryProtection_exchange · flags) uses state root _
    · rfl
  | setReadonly begin limit => cases maps

/-- What a mapping call makes of the space, in terms of the history. -/
theorem Painted.outcome (painted : Painted history space) (maps : call.Maps)
    (outcome : space.Outcome call.exchange after) :
    Painted (history ++ call.mappings arch) after := by
  cases call with
  | mapPage physicalAddress linearAddress flags =>
    have filled : Space.Filled (ProtectionFlags.writable flags.exchange) _ space after := outcome
    rw [ProtectionFlags.writable_exchange] at filled
    exact painted.filled filled
  | mapPages begin limit flags =>
    have filled : Space.Filled (ProtectionFlags.writable flags.exchange) _ space after := outcome
    rw [ProtectionFlags.writable_exchange] at filled
    have painted := painted.filled filled
    rw [List.map_map] at painted
    exact painted
  | setReadonly begin limit => cases maps

theorem Start.marked (start : Start arch root pool state) (setup : Setup arch root pool) :
    Marked root pool state.exchange.words [] state := by
  have exchanged : Start arch root pool state.exchange := ⟨start.lower, start.supply, start.valid⟩
  refine ⟨_, exchanged.stands setup, exchanged.sound, fun index => rfl, fun page flags last => ?_⟩
  cases last

section
variable (marked : Marked root pool origin history state) (setup : Setup arch root pool)
include marked setup

theorem Marked.step {next : State arch frames} (small : call.Small arch) (maps : call.Maps)
    (stepped : Paging.step root state call = some next) :
    Marked root pool origin (history ++ call.mappings arch) next := by
  obtain ⟨space, stands, sound, painted⟩ := marked
  have related := stands.step setup small.exchange
  rw [step_exchange maps, stepped, Option.map_some] at related
  obtain ⟨after, moved, standsNext⟩ := rel_some_left related
  have outcome := sound.outcome small.exchange moved
  exact ⟨after, standsNext, outcome.sound sound, painted.outcome maps outcome⟩

theorem Marked.run (small : ∀ call ∈ calls, call.Small arch) (maps : ∀ call ∈ calls, call.Maps)
    (ran : Runs.run (Paging.step root) state calls = some final) :
    Marked root pool origin (history ++ calls.flatMap (Call.mappings arch)) final := by
  induction calls generalizing state history with
  | nil =>
    cases ran
    rw [List.flatMap_nil, List.append_nil]
    exact marked
  | cons call rest ih =>
    obtain ⟨next, stepped, ran⟩ := Option.bind_eq_some_iff.mp ran
    have markedNext := marked.step setup (small call List.mem_cons_self) (maps call List.mem_cons_self)
      stepped
    rw [List.flatMap_cons, ← List.append_assoc]
    exact ih markedNext (fun other member => small other (List.mem_cons_of_mem _ member))
      (fun other member => maps other (List.mem_cons_of_mem _ member)) ran

/-- A page that has been mapped can be accessed from user mode just if its own last mapping
and the last one below its entry of the top level carried `SUPERVISOR`. -/
theorem Marked.userAccess (last : history.lastOf page = some flags) :
    ∃ above, history.lastBelow page.root = some above ∧
      userAccessPage state.words root page = (above.supervisor && flags.supervisor) := by
  obtain ⟨space, ⟨place, represents⟩, sound, painted⟩ := marked
  have own := painted.leaf page flags last
  have above := painted.upper page.root
  have reach : space.pathOf page.root = some page.path := by
    by_contra missing
    rw [Space.leaf, Space.entryAt, if_neg missing, readEntry_blank] at own
    cases own
  obtain ⟨region, opened, path⟩ := Option.map_eq_some_iff.mp reach
  have deep : page.path.length + 1 = depth arch := path ▸ represents.deep page.root region opened
  have entry : space.entryAt page = region.entries page.leaf := by
    rw [Space.entryAt, if_pos reach, Space.entriesOf, opened]
  rw [Space.upper, opened, Option.map_some] at above
  obtain ⟨aboveFlags, found, same⟩ := Option.map_eq_some_iff.mp above.symm
  rw [Space.leaf, entry] at own
  obtain ⟨result, read, first⟩ := Option.map_eq_some_iff.mp own
  have walked := represents.walk_opened setup deep opened
  rw [if_pos path, read, Option.map_some] at walked
  refine ⟨aboveFlags, found, ?_⟩
  rw [Bool.eq_iff_iff, userAccessPage, userAccess_iff]
  have words : walkPage (fun t i => exchange (state.words t i)) root page =
    some (restrict region.readwrite result) := walked
  rw [walkPage] at words
  rw [words, Option.map_some, Option.some.injEq, restrict, same, first]

end

end

theorem supervisor_shielded_iff (setup : Setup arch root pool) (start : Start arch root pool state)
    (small : ∀ call ∈ calls, call.Small arch) (maps : ∀ call ∈ calls, call.Maps)
    (ran : run (step root) state calls = some final) :
    Shielded root final (calls.flatMap (Call.mappings arch)) ↔
      Overridden (calls.flatMap (Call.mappings arch)) := by
  have marked := (start.marked setup).run setup small maps ran
  rw [List.nil_append] at marked
  refine forall_congr' fun page => forall_congr' fun flags => forall_congr' fun last =>
    forall_congr' fun supervisor => ?_
  obtain ⟨above, found, access⟩ := marked.userAccess setup last
  rw [access, supervisor, Bool.and_true, found]
  simp

section

open PageFrameAllocator (sampleAllocator)

/-- Whether user mode may access a page that has just been mapped with `SUPERVISOR`. -/
def exposed (arch : Arch) : Option Bool := do
  let state ← run (step (sampleRoot arch)) (sampleState arch sampleAllocator)
    [.mapPage 0x5000 0x1000 8]
  return userAccessPage state.words (sampleRoot arch) (locate arch 0x1000)

theorem supervisor_page_exposed : exposed .i386 = some true ∧ exposed .x86_64 = some true := by
  decide +kernel

/-- The page directory entry loses the bit when a neighbour is mapped. -/
theorem supervisor_shielded_sample :
    ∃ final, run (step (sampleRoot .i386)) (sampleState .i386 sampleAllocator)
        [.mapPage 0x5000 0x1000 8, .mapPage 0x6000 0x2000 2] = some final ∧
      Shielded (sampleRoot .i386) final [(locate .i386 0x1000, 8), (locate .i386 0x2000, 2)] := by
  have returns : (run (step (sampleRoot .i386)) (sampleState .i386 sampleAllocator)
      [.mapPage 0x5000 0x1000 8, .mapPage 0x6000 0x2000 2]).isSome = true := by decide +kernel
  obtain ⟨final, ran⟩ := Option.isSome_iff_exists.mp returns
  refine ⟨final, ran, (supervisor_shielded_iff (sample_setup .i386) sample_start ?_ ?_ ran).mpr ?_⟩
  · decide
  · intro call member
    rcases List.mem_pair.mp member with rfl | rfl <;> trivial
  · intro page flags last supervisor
    refine ⟨2, ?_, by decide⟩
    by_cases first : page = locate .i386 0x1000
    · rw [first]
      decide
    by_cases second : page = locate .i386 0x2000
    · rw [second]
      decide
    have never : History.lastOf [(locate .i386 0x1000, 8), (locate .i386 0x2000, 2)] page = none := by
      simp [History.lastOf, History.last, Ne.symm first, Ne.symm second]
    cases never.symm.trans last

end

end FlapjackOS.Paging
