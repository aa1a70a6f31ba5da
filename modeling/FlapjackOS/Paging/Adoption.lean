import FlapjackOS.Paging.Permission

/-! What the first call on a page does to the pages that the structures found under CR3
translate. -/

namespace FlapjackOS.Paging

open Frames Function Runs Simulation

variable {arch : Arch} {frames : Nat} {state after reached : State arch frames}
  {space next : Space arch frames} {root table index leaf below : Nat}
  {path query tables rest seen steps pool : List Nat}
  {words other origin : Words arch} {place : Nat → List Nat} {readwrite : Bool}
  {page : PageIndex} {region : Region arch} {physicalAddress linearAddress : Nat}
  {flags : ProtectionFlags} {calls : List Call}

/-- Where the entries along the indexes lead from a structure, as a logical address. -/
def chase (words : Words arch) (table : Nat) : List Nat → Option Nat
  | [] => some table
  | index :: rest =>
    let word := words table index
    if isPresent word then
      chase words (convertPhysicalToLogicalAddress arch (getTableAddress word)) rest
    else none

def PageIndex.indexes (page : PageIndex) : List Nat := page.root :: (page.path ++ [page.leaf])

/-- The frame that the processor finds for a page. -/
def translation (words : Words arch) (root : Nat) (page : PageIndex) : Option Nat :=
  (walkPage words root page).map Prod.snd

/-- The structures found under CR3 are not among those that `new` is going to return. -/
def Live (root : Nat) (pool : List Nat) (words : Words arch) : Prop :=
  ∀ indexes t, indexes.length ≤ depth arch → chase words root indexes = some t → t ∉ pool

/-- The indexes that are left when a walk along the indexes first reads the entry `index`
of the top level structure, at whatever level that is. -/
def remainder (words : Words arch) (root index table : Nat) : List Nat → Option (List Nat)
  | [] => none
  | first :: rest =>
    if table = root ∧ first = index then some rest
    else
      let word := words table first
      if isPresent word then
        remainder words root index (convertPhysicalToLogicalAddress arch (getTableAddress word)) rest
      else none

/-- All other pages are translated as before. -/
def Undisturbed (root : Nat) (before after : State arch frames) (page : PageIndex) : Prop :=
  ∀ other, Page arch other → other ≠ page →
    translation after.words root other = translation before.words root other

/-- The other page is not translated through the page's entry of the top level, and is not going to be. -/
abbrev Unaffected (words : Words arch) (root : Nat) (page other : PageIndex) : Prop :=
  ∀ rest, remainder words root page.root root other.indexes = some rest →
    translation words root other = none ∧ ¬ rest <+: page.path ++ [page.leaf]

/-- The entry of the top level has a controller that leads to the page's table, or no other
page is translated through the entry or is going to be. -/
def Adoptable (root : Nat) (state : State arch frames) (page : PageIndex) : Prop :=
  match state.lower root page.root with
  | some _ => (state.descend root (page.root :: page.path)).isSome
  | none => ∀ other, Page arch other → other ≠ page → Unaffected state.words root page other

theorem chase_append (words : Words arch) (table : Nat) (first second : List Nat) :
    chase words table (first ++ second) =
      (chase words table first).bind (fun below => chase words below second) := by
  induction first generalizing table with
  | nil => rfl
  | cons index rest ih =>
    rw [List.cons_append, chase, chase]
    split
    · exact ih _
    · rfl

theorem chase_walk (words : Words arch) (table : Nat) (path : List Nat) (leaf : Nat) :
    chase words table (path ++ [leaf]) =
      (walk words table path leaf).map (convertPhysicalToLogicalAddress arch ∘ Prod.snd) := by
  induction path generalizing table with
  | nil =>
    rw [List.nil_append, chase, walk, readEntry, ← frameAddress_eq]
    split <;> rfl
  | cons index path ih =>
    rw [List.cons_append, chase, walk]
    split
    · rw [ih, Option.map_map]
      rfl
    · rfl

theorem walk_representable {result : Bool × Nat} (found : walk words table path leaf = some result) :
    result.2 < arch.modulus := by
  induction path generalizing table result with
  | nil =>
    rw [walk, readEntry] at found
    split at found
    · cases found
      exact (representable_frameAddress _).1
    · cases found
  | cons index path ih =>
    rw [walk] at found
    split at found
    · obtain ⟨inner, walked, rfl⟩ := Option.map_eq_some_iff.mp found
      have bound : inner.2 < arch.modulus := ih walked
      exact bound
    · cases found

theorem convert_injective {first second : Nat} (small : first < arch.modulus)
    (smallOther : second < arch.modulus)
    (same : convertPhysicalToLogicalAddress arch first = convertPhysicalToLogicalAddress arch second) :
    first = second := by
  cases arch <;>
    simp only [convertPhysicalToLogicalAddress, Arch.add, Machine.wordAdd, kernelVirtualStart,
      Arch.modulus, Arch.wordBytes] at small smallOther same <;> omega

theorem chase_page (words : Words arch) (root : Nat) (page : PageIndex) :
    chase words root page.indexes =
      (translation words root page).map (convertPhysicalToLogicalAddress arch) := by
  rw [translation, Option.map_map]
  exact chase_walk words root (page.root :: page.path) page.leaf

theorem translation_eq_none :
    translation words root page = none ↔ chase words root page.indexes = none := by
  rw [chase_page, Option.map_eq_none_iff]

/-- Two memories translate a page alike if the entries lead to the same place. -/
theorem translation_eq_iff : translation other root page = translation words root page ↔
    chase other root page.indexes = chase words root page.indexes := by
  refine ⟨fun same => by rw [chase_page, chase_page, same], fun same => ?_⟩
  rw [chase_page, chase_page] at same
  cases here : translation words root page with
  | none =>
    rw [here, Option.map_none, Option.map_eq_none_iff] at same
    exact same
  | some frame =>
    rw [here, Option.map_some, Option.map_eq_some_iff] at same
    obtain ⟨frameOther, there, equal⟩ := same
    obtain ⟨result, found, rfl⟩ := Option.map_eq_some_iff.mp here
    obtain ⟨resultOther, foundOther, rfl⟩ := Option.map_eq_some_iff.mp there
    rw [there, convert_injective (walk_representable foundOther) (walk_representable found) equal]

theorem remainder_split (left : remainder words root index table steps = some rest) :
    ∃ front, steps = front ++ index :: rest ∧ chase words table front = some root := by
  induction steps generalizing table with
  | nil => cases left
  | cons first tail ih =>
    rw [remainder] at left
    split at left
    · next here =>
      obtain ⟨rfl, rfl⟩ := here
      cases left
      exact ⟨[], rfl, rfl⟩
    · by_cases present : isPresent (words table first) = true
      · rw [if_pos present] at left
        obtain ⟨front, rfl, chased⟩ := ih left
        refine ⟨first :: front, rfl, ?_⟩
        rw [chase, if_pos present, chased]
      · rw [if_neg present] at left
        cases left

section

/-- Down to the page table the processor and the controllers go the same way. -/
theorem Stem.chase (stem : Stem state table path tables readwrite leaf)
    (good : ∀ t ∈ tables, KernelTable arch t) (short : query.length ≤ path.length) :
    Paging.chase state.words table query = state.descend table query := by
  induction stem generalizing query with
  | leaf =>
    obtain rfl : query = [] := List.length_eq_zero_iff.mp (Nat.le_zero.mp short)
    rfl
  | link linked sole rest ih =>
    rename_i table index below path tables readwrite leaf
    cases query with
    | nil => rfl
    | cons first query =>
      by_cases same : first = index
      · subst same
        have logical := (good below List.mem_cons_self).logical
        have later := ih (fun t member => good t (List.mem_cons_of_mem _ member)) (by simpa using short)
        rw [Paging.chase, if_pos linked.present, linked.address, logical, later, State.descend,
          linked.lower, Option.bind_some]
      · have absent : isPresent (state.words table first) = false := by
          rw [(sole first same).2, isPresent_zero]
        simp [Paging.chase, absent, State.descend, (sole first same).1]

/-- The structures of an open region and the entries of its page table. -/
theorem Represents.chase_below (represents : Represents root pool origin place state space)
    (setup : Setup arch root pool) (opened : space.regions index = some region) :
    ∃ below leaf, state.lower root index = some below ∧ region.entries = state.entry leaf ∧
      (∀ query, chase state.words root (index :: query) = chase state.words below query) ∧
      state.descend below region.path = some leaf ∧
      ∀ query, query.length ≤ region.path.length →
        chase state.words below query = state.descend below query := by
  obtain ⟨below, rest, readwrite, leaf, placed, linked, stem, _, entries⟩ :=
    (represents.opened index region opened).chain
  have good : ∀ t ∈ below :: rest, KernelTable arch t := fun t member =>
    setup.tables t (represents.placement.taken index t (placed ▸ member)).1
  refine ⟨below, leaf, linked.lower, entries, fun query => ?_, stem.descend_leaf, fun query short => ?_⟩
  · rw [chase, if_pos linked.present, linked.address, (good below List.mem_cons_self).logical]
  · exact stem.chase (fun t member => good t (List.mem_cons_of_mem _ member)) short

/-- Where an entry of a page table leads. -/
def PageEntry.target (entry : PageEntry arch) : Option Nat :=
  if entry.isPresent then some (convertPhysicalToLogicalAddress arch (getTableAddress entry.pte))
  else none

variable (represents : Represents root pool origin place state space) (setup : Setup arch root pool)
include represents setup

/-- A walk through an open entry that ends above the page table's entries. -/
theorem Represents.chase_opened (opened : space.regions index = some region)
    (short : query.length ≤ region.path.length) :
    chase state.words root (index :: query) =
      if query <+: region.path then (place index)[query.length]? else none := by
  obtain ⟨below, leaf, lower, _, enters, _, follows⟩ := represents.chase_below setup opened
  have leads := represents.descend index query fun other found => by
    cases opened.symm.trans found
    exact short
  rw [State.descend, lower, Option.bind_some, opened, Option.bind_some] at leads
  rw [enters, follows query short, leads]

/-- A walk through an open entry that ends in an entry of a page table. -/
theorem Represents.chase_entry (opened : space.regions index = some region)
    (full : query.length = region.path.length) (leaf : Nat) :
    chase state.words root (index :: (query ++ [leaf])) =
      if query = region.path then (region.entries leaf).target else none := by
  obtain ⟨below, last, lower, entries, enters, bottom, follows⟩ := represents.chase_below setup opened
  rw [enters, chase_append, follows query full.le]
  split
  · next same =>
    rw [same, bottom, entries]
    rfl
  · next different =>
    have leads := represents.descend_none opened (full ▸ represents.deep index region opened)
      (Ne.symm different)
    rw [State.descend, lower, Option.bind_some] at leads
    rw [leads]
    rfl

end

section
variable {place' : Nat → List Nat} {first : Nat}

theorem exists_entry (short : rest.length ≤ path.length + 1) (above : ¬ rest.length ≤ path.length) :
    ∃ query leaf, rest = query ++ [leaf] ∧ query.length = path.length := by
  have nonempty : rest ≠ [] := by
    rintro rfl
    exact above (Nat.zero_le _)
  refine ⟨rest.dropLast, rest.getLast nonempty, (List.dropLast_append_getLast nonempty).symm, ?_⟩
  rw [List.length_dropLast]
  omega

theorem chase_concat (chased : chase words root seen = some table)
    (present : isPresent (words table index) = true) :
    chase words root (seen ++ [index]) =
      some (convertPhysicalToLogicalAddress arch (getTableAddress (words table index))) := by
  rw [chase_append, chased, Option.bind_some, chase, if_pos present]
  rfl

/-- Outside the open regions the words are those found under CR3. -/
theorem Represents.word (represents : Represents root pool origin place state space)
    (foreign : table ∉ pool) (closed : table = root → space.regions index = none) :
    state.words table index = origin table index := by
  by_cases top : table = root
  · rw [top]
    exact (represents.closed index (closed top)).2
  · rw [represents.outside table top foreign]

/-- A walk down to a page table stays among the structures found under CR3 or enters an
open region. -/
theorem Represents.chase_cases (represents : Represents root pool origin place state space)
    (setup : Setup arch root pool) (live : Live root pool origin)
    (reach : chase origin root seen = some table)
    (short : seen.length + steps.length ≤ depth arch)
    (chased : chase state.words table steps = some below) :
    below ∉ pool ∨ ∃ j, (space.regions j).isSome ∧ below ∈ place j := by
  induction steps generalizing table seen with
  | nil =>
    rw [chase, Option.some.injEq] at chased
    rw [← chased]
    exact .inl (live seen table (Nat.le_of_add_right_le short) reach)
  | cons index rest ih =>
    have foreign := live seen table (Nat.le_of_add_right_le short) reach
    rw [List.length_cons] at short
    by_cases enters : table = root ∧ space.regions index ≠ none
    · obtain ⟨rfl, opened⟩ := enters
      obtain ⟨region, opened⟩ := Option.ne_none_iff_exists'.mp opened
      have deep := represents.deep index region opened
      rw [represents.chase_opened setup opened (by omega)] at chased
      split at chased
      · exact .inr ⟨index, by rw [opened]; rfl, List.mem_of_getElem? chased⟩
      · cases chased
    · have closed : table = root → space.regions index = none := fun top =>
        Classical.byContradiction fun opened => enters ⟨top, opened⟩
      have word := represents.word foreign closed
      rw [chase] at chased
      by_cases present : isPresent (state.words table index) = true
      · rw [if_pos present, word] at chased
        rw [word] at present
        refine ih (chase_concat reach present) ?_ chased
        rw [List.length_append, List.length_singleton]
        omega
      · rw [if_neg present] at chased
        cases chased

variable (represents : Represents root pool origin place state space)
  (representsAfter : Represents root pool origin place' after next) (setup : Setup arch root pool)
include represents representsAfter setup

theorem Represents.chase_same (opened : space.regions first = some region)
    (openedAfter : next.regions first = some region) (placed : place' first = place first)
    (short : rest.length ≤ depth arch) :
    chase after.words root (first :: rest) = chase state.words root (first :: rest) := by
  have deep := represents.deep first region opened
  by_cases above : rest.length ≤ region.path.length
  · rw [represents.chase_opened setup opened above,
      representsAfter.chase_opened setup openedAfter above, placed]
  · obtain ⟨query, leaf, rfl, full⟩ := exists_entry (deep ▸ short) above
    rw [represents.chase_entry setup opened full, representsAfter.chase_entry setup openedAfter full]

/-- If the states differ in one region only, so do the walks from the first time they read
its entry on. -/
theorem Represents.chase_after (live : Live root pool origin)
    (regions : ∀ j, j ≠ index → next.regions j = space.regions j)
    (placed : ∀ j, j ≠ index → place' j = place j)
    (reach : chase origin root seen = some table)
    (short : seen.length + steps.length ≤ depth arch + 1) :
    chase after.words table steps =
      match remainder state.words root index table steps with
      | none => chase state.words table steps
      | some rest => chase after.words root (index :: rest) := by
  induction steps generalizing table seen with
  | nil => rfl
  | cons first rest ih =>
    rw [List.length_cons] at short
    have foreign := live seen table (by omega) reach
    by_cases here : table = root ∧ first = index
    · obtain ⟨rfl, rfl⟩ := here
      rw [remainder, if_pos ⟨rfl, rfl⟩]
    by_cases enters : table = root ∧ space.regions first ≠ none
    · obtain ⟨rfl, opened⟩ := enters
      have other : first ≠ index := fun same => here ⟨rfl, same⟩
      obtain ⟨region, opened⟩ := Option.ne_none_iff_exists'.mp opened
      have deep := represents.deep first region opened
      have misses : remainder state.words table index table (first :: rest) = none := by
        refine Option.eq_none_iff_forall_ne_some.mpr fun left found => ?_
        obtain ⟨front, split, back⟩ := remainder_split found
        cases front with
        | nil => exact other (List.cons.inj split).1
        | cons _ query =>
          obtain ⟨rfl, tail⟩ := List.cons.inj split
          have shorter : query.length < rest.length := by
            rw [tail]
            simp
          rw [represents.chase_opened setup opened (by omega)] at back
          split at back
          · exact represents.placed_ne_root setup (List.mem_of_getElem? back) rfl
          · cases back
      rw [misses]
      exact represents.chase_same representsAfter setup opened ((regions first other).trans opened)
        (placed first other) (by omega)
    · have closed : table = root → space.regions first = none := fun top =>
        Classical.byContradiction fun opened => enters ⟨top, opened⟩
      have closedAfter : table = root → next.regions first = none := fun top =>
        (regions first fun same => here ⟨top, same⟩).trans (closed top)
      have word := represents.word foreign closed
      have wordAfter := representsAfter.word foreign closedAfter
      rw [remainder, if_neg here, chase, chase, word, wordAfter]
      by_cases present : isPresent (origin table first) = true
      · simp only [present, if_true]
        refine ih (chase_concat reach present) ?_
        rw [List.length_append, List.length_singleton]
        omega
      · simp only [present]
        rfl

end

section
variable {allocator : PageFrameAllocator frames} {changed : PageEntry arch} {writable : Bool}
  {others : PageIndex}

theorem PageIndex.indexes_injective {first second : PageIndex} (same : first.indexes = second.indexes) :
    first = second := by
  obtain ⟨root, lower⟩ := List.cons.inj same
  obtain ⟨path, leaf⟩ := List.append_inj' lower rfl
  cases first
  cases second
  simp_all

/-- Only the page itself reads the entry first and then goes on along its own indexes. -/
theorem remainder_ne {other : PageIndex} (deep : page.path.length + 1 = depth arch)
    (deepOther : other.path.length + 1 = depth arch) (different : other ≠ page)
    (left : remainder words root page.root table other.indexes = some rest) :
    rest.length ≤ depth arch ∧ rest ≠ page.path ++ [page.leaf] := by
  obtain ⟨front, split, _⟩ := remainder_split left
  have length := congrArg List.length split
  simp only [PageIndex.indexes, List.length_cons, List.length_append, List.length_nil] at length
  refine ⟨by omega, fun same => different (PageIndex.indexes_injective ?_)⟩
  have whole : front = [] := by
    rw [same] at length
    simp only [List.length_append, List.length_cons, List.length_nil] at length
    exact List.length_eq_zero_iff.mp (by omega)
  rw [split, whole, same]
  rfl

theorem Represents.place_length (represents : Represents root pool origin place state space)
    (opened : space.regions index = some region) :
    (place index).length = region.path.length + 1 := by
  obtain ⟨below, rest, readwrite, leaf, placed, _, stem, _⟩ :=
    (represents.opened index region opened).chain
  rw [placed, List.length_cons, stem.length]

theorem Space.regions_put (space : Space arch frames) (page : PageIndex) (writable : Bool)
    (changed : PageEntry arch) (allocator : PageFrameAllocator frames) :
    ∃ region, (space.put page writable changed allocator).regions page.root = some region ∧
      region.path = page.path ∧
      region.entries = update (space.entriesOf page.root) page.leaf changed :=
  ⟨_, update_self .., rfl, rfl⟩

variable (represents : Represents root pool origin place state space)
  (representsAfter : Represents root pool origin (update place page.root tables) after
    (space.put page writable changed allocator))
  (setup : Setup arch root pool)
include represents representsAfter setup

/-- The structures of a new region have not been reached before. -/
theorem Represents.chase_ne_fresh (live : Live root pool origin)
    (closed : space.regions page.root = none) (short : steps.length ≤ depth arch)
    (fresh : below ∈ tables) : chase state.words root steps ≠ some below := by
  intro chased
  have member : below ∈ update place page.root tables page.root := by rwa [update_self]
  have start : chase origin root [] = some root := rfl
  rcases represents.chase_cases setup live start (by simpa using short) chased with
    foreign | ⟨j, opened, taken⟩
  · exact foreign (representsAfter.placement.taken _ _ member).1
  · have different : j ≠ page.root := by
      rintro rfl
      rw [closed] at opened
      cases opened
    rw [← update_of_ne different tables place] at taken
    exact different (representsAfter.placement.apart _ _ _ taken member)

variable (deep : page.path.length + 1 = depth arch)
include deep

/-- A walk off the page's own indexes through an entry that was open before. -/
theorem Represents.chase_opened_put (opened : space.regions page.root = some region)
    (enters : region.path = page.path) (kept : tables = place page.root)
    (short : rest.length ≤ depth arch) (off : rest ≠ page.path ++ [page.leaf]) :
    chase after.words root (page.root :: rest) = chase state.words root (page.root :: rest) := by
  obtain ⟨mapped, openedAfter, path, entries⟩ := space.regions_put page writable changed allocator
  by_cases above : rest.length ≤ page.path.length
  · rw [representsAfter.chase_opened setup openedAfter (path ▸ above),
      represents.chase_opened setup opened (enters ▸ above), update_self, kept, path, enters]
  · obtain ⟨query, leaf, rfl, full⟩ := exists_entry (deep ▸ short) above
    rw [representsAfter.chase_entry setup openedAfter (path ▸ full),
      represents.chase_entry setup opened (enters ▸ full), path, enters, entries]
    split
    · next same =>
      have elsewhere : leaf ≠ page.leaf := fun leaf => off (by rw [same, leaf])
      rw [update_of_ne elsewhere, Space.entriesOf, opened]
    · rfl

/-- A walk off the page's own indexes through an entry that was closed before. -/
theorem Represents.chase_closed_put (live : Live root pool origin)
    (closed : space.regions page.root = none)
    (short : rest.length ≤ depth arch) (off : rest ≠ page.path ++ [page.leaf]) :
    chase after.words root (page.root :: rest) = chase state.words root (page.root :: rest) ↔
      chase state.words root (page.root :: rest) = none ∧ ¬ rest <+: page.path ++ [page.leaf] := by
  obtain ⟨mapped, openedAfter, path, entries⟩ := space.regions_put page writable changed allocator
  by_cases above : rest.length ≤ page.path.length
  · have shown : rest <+: page.path ++ [page.leaf] ↔ rest <+: page.path := by
      constructor
      · intro isPrefix
        exact List.prefix_of_prefix_length_le isPrefix (List.prefix_append _ _) above
      · intro isPrefix
        exact isPrefix.trans (List.prefix_append _ _)
    rw [representsAfter.chase_opened setup openedAfter (path ▸ above), path, shown, update_self]
    split
    · next isPrefix =>
      have length := representsAfter.place_length openedAfter
      rw [update_self, path] at length
      obtain ⟨below, found⟩ : ∃ below, tables[rest.length]? = some below :=
        ⟨_, List.getElem?_eq_getElem (length ▸ Nat.lt_succ_of_le above)⟩
      refine iff_of_false (fun same => ?_) (fun none => none.2 isPrefix)
      have shorter : (page.root :: rest).length ≤ depth arch := deep ▸ Nat.succ_le_succ above
      exact represents.chase_ne_fresh representsAfter setup live closed shorter
        (List.mem_of_getElem? found) (same.symm.trans found)
    · next off => simp [off, eq_comm]
  · obtain ⟨query, leaf, rfl, full⟩ := exists_entry (deep ▸ short) above
    have lost : chase after.words root (page.root :: (query ++ [leaf])) = none := by
      rw [representsAfter.chase_entry setup openedAfter (path ▸ full), path, entries]
      split
      · next same =>
        have elsewhere : leaf ≠ page.leaf := fun leaf => off (by rw [same, leaf])
        rw [update_of_ne elsewhere, Space.entriesOf, closed, PageEntry.target, isPresent_blank]
        rfl
      · rfl
    have ends : ¬ query ++ [leaf] <+: page.path ++ [page.leaf] := fun isPrefix =>
      off (isPrefix.eq_of_length (by simp [full]))
    rw [lost]
    simp [ends, eq_comm]

/-- Mapping a page disturbs another page just if its entry was closed and the other page
reads it. -/
theorem Represents.translation_iff (live : Live root pool origin) (enters : space.Enters page)
    (kept : (space.regions page.root).isSome → tables = place page.root) (other : PageIndex)
    (isPage : Page arch other) (different : other ≠ page) :
    translation after.words root other = translation state.words root other ↔
      (space.regions page.root = none → Unaffected state.words root page other) := by
  have start : chase origin root [] = some root := rfl
  have walks := represents.chase_after representsAfter setup live
    (fun j elsewhere => update_of_ne elsewhere _ _) (fun j elsewhere => update_of_ne elsewhere _ _)
    start (show _ + other.indexes.length ≤ _ by simp [PageIndex.indexes, ← isPage.deep])
  rw [translation_eq_iff, Unaffected, translation_eq_none, walks]
  cases left : remainder state.words root page.root root other.indexes with
  | none => simp
  | some rest =>
    obtain ⟨short, off⟩ := remainder_ne deep isPage.deep different left
    obtain ⟨front, split, chased⟩ := remainder_split left
    rw [split, chase_append, chased, Option.bind_some]
    cases found : space.regions page.root with
    | none =>
      have effect := represents.chase_closed_put representsAfter setup deep live found short off
      simpa using effect
    | some region =>
      have path : region.path = page.path := enters _ (by simp [Space.pathOf, found])
      have effect := represents.chase_opened_put representsAfter setup deep found path
        (kept (by rw [found]; rfl)) short off
      simpa using effect

end

theorem Stands.adoptable_iff (stands : Stands root pool origin state space)
    (deep : page.path.length + 1 = depth arch) :
    Adoptable root state page ↔ space.Enters page ∧ (space.regions page.root = none →
      ∀ other, Page arch other → other ≠ page → Unaffected state.words root page other) := by
  have enters := stands.enters_iff deep
  have lower : state.lower root page.root = none ↔ space.regions page.root = none := by
    rw [stands.lower_iff, Space.upper, Option.map_eq_none_iff]
  rw [Adoptable, ← enters, ← lower]
  cases state.lower root page.root with
  | none => simp
  | some below => simp

theorem mapPage_undisturbed_iff (setup : Setup arch root pool) (start : Start arch root pool state)
    (live : Live root pool state.words) (small : ∀ call ∈ calls, call.Small arch)
    (ran : run (step root) state calls = some reached) (smallLinear : linearAddress < arch.modulus)
    (asserted : arch = .x86_64 → physicalAddress % pageSize = 0) (flags : ProtectionFlags) :
    (∃ after, mapPage root reached physicalAddress linearAddress flags = some after ∧
      Undisturbed root reached after (locate arch linearAddress)) ↔
      Adoptable root reached (locate arch linearAddress) := by
  obtain ⟨space, stands, sound⟩ := (start.orderly setup).run setup small ran
  have deep := locate_depth arch linearAddress
  rw [stands.adoptable_iff deep]
  obtain ⟨place, represents⟩ := stands
  obtain ⟨tables, kept, related⟩ := represents.mapPage setup physicalAddress flags smallLinear
  obtain ⟨allocator, changed, used⟩ :=
    mapEntry_returns flags sound.valid (sound.tidy (locate arch linearAddress)) asserted
  rw [Space.mapPage, Space.map_eq, used, Option.map_some] at related
  by_cases enters : space.Enters (locate arch linearAddress)
  · rw [if_pos enters] at related
    obtain ⟨after, mapped, representsAfter⟩ := rel_some_right related
    have effect := represents.translation_iff representsAfter setup deep live enters kept
    constructor
    · rintro ⟨other, again, undisturbed⟩
      cases mapped.symm.trans again
      refine ⟨enters, fun closed page isPage different => ?_⟩
      exact (effect page isPage different).mp (undisturbed page isPage different) closed
    · rintro ⟨_, adoptable⟩
      refine ⟨after, mapped, fun page isPage different => ?_⟩
      exact (effect page isPage different).mpr fun closed => adoptable closed page isPage different
  · rw [if_neg enters] at related
    rw [rel_none_right related]
    simp [enters]

section

open PageFrameAllocator (sampleAllocator)

/-- Structures that map one page. -/
def liveEntries : Arch → List ((Nat × Nat) × Nat)
  | .i386 => [((sampleRoot .i386, 0), 0x2003), ((kernelVirtualStart .i386 + 0x2000, 1), 0x5003)]
  | .x86_64 => [((sampleRoot .x86_64, 0), 0x2003),
    ((kernelVirtualStart .x86_64 + 0x2000, 0), 0x3003),
    ((kernelVirtualStart .x86_64 + 0x3000, 0), 0x4003),
    ((kernelVirtualStart .x86_64 + 0x4000, 1), 0x5003)]

def liveState (arch : Arch) : State arch 10 :=
  { sampleState arch sampleAllocator with
    words := fun table index => BitVec.ofNat _ (((liveEntries arch).lookup (table, index)).getD 0) }

theorem live_start : Start .i386 (sampleRoot .i386) (samplePool .i386) (liveState .i386) where
  lower _ := rfl
  supply := by rw [liveState, sampleState]
  valid := sample_start.valid

/-- The structures are below those that `new` returns. -/
theorem live_live : Live (sampleRoot .i386) (samplePool .i386) (liveState .i386).words := by
  have low {table index : Nat} (present : isPresent ((liveState .i386).words table index) = true) :
      convertPhysicalToLogicalAddress .i386 (getTableAddress ((liveState .i386).words table index)) <
        kernelVirtualStart .i386 + 0x100000 := by
    have word : (liveState .i386).words table index =
      BitVec.ofNat _ (((liveEntries .i386).lookup (table, index)).getD 0) := rfl
    rw [word] at present ⊢
    cases found : (liveEntries .i386).lookup (table, index) with
    | none =>
      rw [found] at present
      exact absurd present (by decide)
    | some entry =>
      obtain ⟨before, later, split, -⟩ := List.lookup_eq_some_iff.mp found
      have targets : ∀ entry ∈ liveEntries .i386, convertPhysicalToLogicalAddress .i386
          (getTableAddress (BitVec.ofNat Arch.i386.bits entry.2 : Word .i386)) <
            kernelVirtualStart .i386 + 0x100000 := by
        decide
      exact targets ((table, index), entry) (split ▸ List.mem_append_right before List.mem_cons_self)
  have below (indexes : List Nat) : ∀ {table t : Nat}, table < kernelVirtualStart .i386 + 0x100000 →
      chase (liveState .i386).words table indexes = some t → t < kernelVirtualStart .i386 + 0x100000 := by
    induction indexes with
    | nil => rintro table _ small ⟨⟩; exact small
    | cons index rest ih =>
      intro table t _ found
      obtain ⟨present, found⟩ := Option.ite_none_right_eq_some.mp found
      exact ih (low present) found
  intro indexes t _ found member
  have small := below indexes (by decide) found
  obtain ⟨k, _, rfl⟩ := List.mem_map.mp member
  omega

/-- Two pages below another top level entry are mapped. -/
theorem mapPage_undisturbed_sample : ∃ reached after,
    run (step (sampleRoot .i386)) (liveState .i386) [.mapPage 0x6000 0x400000 2] = some reached ∧
      mapPage (sampleRoot .i386) reached 0x7000 0x401000 2 = some after ∧
      Undisturbed (sampleRoot .i386) reached after (locate .i386 0x401000) ∧
      translation reached.words (sampleRoot .i386) (locate .i386 0x1000) = some 0x5000 := by
  have facts : (run (step (sampleRoot .i386)) (liveState .i386) [.mapPage 0x6000 0x400000 2]).any (fun reached =>
      (reached.lower (sampleRoot .i386) 1).isSome ∧
        translation reached.words (sampleRoot .i386) (locate .i386 0x1000) = some 0x5000) = true := by
    decide +kernel
  obtain ⟨reached, ran, facts⟩ := (Option.any_eq_true _ _).mp facts
  obtain ⟨opened, translated⟩ := of_decide_eq_true facts
  obtain ⟨below, opened⟩ := Option.isSome_iff_exists.mp opened
  have adoptable : Adoptable (sampleRoot .i386) reached (locate .i386 0x401000) := by
    have here : reached.lower (sampleRoot .i386) (locate .i386 0x401000).root = some below := opened
    simp only [Adoptable, State.descend, here, Option.bind_some]
    rfl
  have words : ∀ call ∈ [Call.mapPage 0x6000 0x400000 2], call.Small .i386 :=
    List.forall_mem_singleton.mpr ⟨by decide, by decide⟩
  obtain ⟨after, mapped, undisturbed⟩ := (mapPage_undisturbed_iff (sample_setup .i386) live_start live_live
    words ran (by decide) (by rintro ⟨⟩) 2).mpr adoptable
  exact ⟨reached, after, ran, mapped, undisturbed, translated⟩

/-- The translation of that page before and after its neighbour is mapped. -/
def adopted (arch : Arch) : Option (Option Nat × Option Nat) := do
  let after ← mapPage (sampleRoot arch) (liveState arch) 0x6000 0x2000 2
  return (translation (liveState arch).words (sampleRoot arch) (locate arch 0x1000),
    translation after.words (sampleRoot arch) (locate arch 0x1000))

theorem first_mapping_loses_neighbour :
    adopted .i386 = some (some 0x5000, none) ∧ adopted .x86_64 = some (some 0x5000, none) := by
  decide +kernel

end

end FlapjackOS.Paging
