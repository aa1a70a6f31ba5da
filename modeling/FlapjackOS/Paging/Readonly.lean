import FlapjackOS.Paging.Invalidation

/-! `set_readonly` of the unmanaged map and of the managed map of i386, for ranges that need
not begin on a page boundary. -/

namespace FlapjackOS.Paging

open Bits Frames Function

variable {arch : Arch} {frames begin limit : Nat}

/-- `set_readonly` of the unmanaged map: the state after it and the addresses that were passed
to the memory management unit. -/
def unmanagedSetReadonly (cr3 : Nat) (state : State arch frames) (begin limit : Nat) :
    Option (State arch frames × List Nat) := do
  let state ← (GenericUnmanagedPhysicalMemoryMap arch (unmanagedActions cr3)).setReadonly state begin limit
  let invalidated ← invalidatePages arch PageLoop.note [] begin limit
  return (state, invalidated)

/-- `set_readonly` of the managed map. -/
def managedSetReadonly (root : Nat) (state : State arch frames) (begin limit : Nat) :
    Option (State arch frames × List Nat) := do
  let state ← (ManagedPhysicalMemoryMap arch (managedActions root)).setReadonly state begin limit
  let invalidated ← invalidatePages arch PageLoop.note [] begin limit
  return (state, invalidated)

/-- Where the resolver finds the leaf entry of a page. -/
def resolverLeaf (cr3 : Nat) (state : State arch frames) (page : Nat) : Option (Nat × Nat) :=
  Resolver.getPageTableEntry state.words cr3 page

/-- Where the controllers have the leaf entry of a page: `get_pml1_entry_by_address`. -/
def controllerLeaf (root : Nat) (state : State arch frames) (page : Nat) : Option (Nat × Nat) :=
  (state.descend root ((locate arch page).root :: (locate arch page).path)).map (·, (locate arch page).leaf)

/-- The linear addresses that the machine accepts. -/
def Canonical : Arch → Nat → Prop
  | .i386, address => address < 2 ^ 32
  | .x86_64, address => address < 2 ^ 47 ∨ 2 ^ 64 - 2 ^ 47 ≤ address ∧ address < 2 ^ 64

/-- The address of a page. -/
structure LinearPage (arch : Arch) (page : Nat) : Prop where
  aligned : page % pageSize = 0
  canonical : Canonical arch page

/-- The page overlaps the range. -/
def Touches (begin limit page : Nat) : Prop := page < limit ∧ begin < page + pageSize

instance : Decidable (Touches begin limit page) := inferInstanceAs (Decidable (_ ∧ _))

/-- Every page that overlaps the range has a leaf entry. -/
def RangeMapped (arch : Arch) (leaf : Nat → Option (Nat × Nat)) (begin limit : Nat) : Prop :=
  ∀ page, page % pageSize = 0 → Touches begin limit page → Canonical arch page ∧ (leaf page).isSome

/-- The leaf entry of a page. -/
def leafEntry (words : Words arch) (leaf : Nat → Option (Nat × Nat)) (page : Nat) :
    Option (Word arch) :=
  (leaf page).map fun place => words place.1 place.2

/-- What a call over the range has to do to the leaf entries. -/
structure Covered (arch : Arch) (before after : Nat → Option (Word arch)) (begin limit : Nat)
    (invalidated : List Nat) : Prop where
  cleared : ∀ page, LinearPage arch page → Touches begin limit page →
    ∃ pte, after page = some pte ∧ isReadwrite pte = false
  kept : ∀ page, LinearPage arch page → ¬ Touches begin limit page → after page = before page
  passed : ∀ page, LinearPage arch page → after page ≠ before page →
    ∃ address ∈ invalidated, address / pageSize = page / pageSize

/-- The loop over the range comes to an address in the page. -/
def Visited (begin limit page : Nat) : Prop :=
  ∃ address ∈ visitedPages begin limit, address / pageSize = page / pageSize

/-- The loop ends, it does not change a page that it does not visit, and it visits the last
page of the range or finds nothing to do there. -/
structure Coverable (arch : Arch) (words : Words arch) (leaf : Nat → Option (Nat × Nat))
    (begin limit : Nat) : Prop where
  terminates : Terminates arch begin limit
  alone : ∀ page, LinearPage arch page → ∀ address ∈ visitedPages begin limit, leaf page = leaf address →
    (∃ pte, leafEntry words leaf page = some pte ∧ isReadwrite pte = true) → Visited begin limit page
  last : begin % pageSize ≤ (limit - 1) % pageSize ∨
    ∃ pte, leafEntry words leaf ((limit - 1) / pageSize * pageSize) = some pte ∧ isReadwrite pte = false

/-- From an offset beyond that of the range's end, the last page is the one that is missed. -/
theorem visited_iff (aligned : page % pageSize = 0) :
    Visited begin limit page ↔ Touches begin limit page ∧
      (page = (limit - 1) / pageSize * pageSize → begin % pageSize ≤ (limit - 1) % pageSize) := by
  simp only [Visited, mem_visitedPages, Touches, pageSize] at aligned ⊢
  constructor
  · rintro ⟨address, ⟨low, high, offset⟩, same⟩
    omega
  · rintro ⟨⟨high, low⟩, last⟩
    exact ⟨page + begin % 4096, by omega, by omega⟩

section
variable {data : Word arch} {words : Words arch} {leaf : Nat → Option (Nat × Nat)} {page : Nat}

theorem setReadwrite_false_eq_iff : setReadwrite data false = data ↔ isReadwrite data = false :=
  setFlag_eq_self_iff (flag_inside arch (by decide))

/-- Clear the R/W bit of one entry. -/
def clearAt (words : Words arch) (place : Nat × Nat) : Words arch :=
  update words place.1 (update (words place.1) place.2 (setReadwrite (words place.1 place.2) false))

theorem clearAt_apply (words : Words arch) (place : Nat × Nat) (table index : Nat) :
    clearAt words place table index =
      if place = (table, index) then setReadwrite (words table index) false else words table index := by
  obtain ⟨other, position⟩ := place
  simp only [clearAt, update_apply, Prod.mk.injEq]
  by_cases sameTable : table = other
  · subst sameTable
    by_cases sameIndex : index = position
    · subst sameIndex
      simp
    · simp [sameIndex, Ne.symm sameIndex]
  · simp [sameTable, Ne.symm sameTable]

/-- The state of a memory map, as far as `set_readonly` is concerned: its action on a page
clears the R/W bit of the page's leaf entry and moves no leaf entry. -/
structure Protects {σ : Type} (words : σ → Words arch) (leaf : σ → Nat → Option (Nat × Nat))
    (protect : σ → Nat → Option σ) : Prop where
  step : ∀ state page place, leaf state page = some place →
    ∃ after, protect state page = some after ∧ words after = clearAt (words state) place ∧
      leaf after = leaf state
  page : ∀ state address, leaf state address = leaf state (address / pageSize * pageSize)

section
variable {σ : Type} {words : σ → Words arch} {leaf : σ → Nat → Option (Nat × Nat)}
  {protect : σ → Nat → Option σ} {state after : σ}

/-- The call over the range has done what it has to do. -/
abbrev CoveredBy (words : σ → Words arch) (leaf : σ → Nat → Option (Nat × Nat)) (begin limit : Nat)
    (invalidated : List Nat) (state after : σ) : Prop :=
  Covered arch (leafEntry (words state) (leaf state)) (leafEntry (words after) (leaf after)) begin limit invalidated

/-- Exactly the leaf entries of the addresses have been cleared, and none has moved. -/
structure ClearedLeaves (words : σ → Words arch) (leaf : σ → Nat → Option (Nat × Nat))
    (addresses : List Nat) (state after : σ) : Prop where
  fixed : leaf after = leaf state
  entries : ∀ table index, words after table index =
    if ∃ address ∈ addresses, leaf state address = some (table, index) then
      setReadwrite (words state table index) false
    else words state table index

theorem Protects.run (protects : Protects words leaf protect) (addresses : List Nat)
    (found : ∀ address ∈ addresses, (leaf state address).isSome) :
    ∃ after, Runs.run protect state addresses = some after ∧
      ClearedLeaves words leaf addresses state after := by
  induction addresses generalizing state with
  | nil => exact ⟨state, rfl, rfl, by simp⟩
  | cons address rest ih =>
    obtain ⟨place, here⟩ := Option.isSome_iff_exists.mp (found address List.mem_cons_self)
    obtain ⟨next, stepped, changed, same⟩ := protects.step state address place here
    obtain ⟨after, ran, fixed, cleared⟩ := @ih next fun other member => by
      rw [same]
      exact found other (List.mem_cons_of_mem _ member)
    refine ⟨after, by simp [Runs.run, stepped, ran], fixed.trans same, fun table index => ?_⟩
    have twice : setReadwrite (setReadwrite (words state table index) false) false =
        setReadwrite (words state table index) false :=
      setReadwrite_false_eq_iff.mpr isReadwrite_setReadwrite
    rw [cleared, changed, clearAt_apply, same]
    simp only [List.exists_mem_cons_iff, here, Option.some.injEq]
    by_cases first : place = (table, index)
    · simp only [first, if_true, true_or, twice, ite_self]
    · simp only [first, if_false, false_or]

/-- A page that shares its entry with one of the addresses is changed with it. -/
theorem ClearedLeaves.shared (cleared : ClearedLeaves words leaf addresses state after)
    (member : address ∈ addresses) (same : leaf state page = leaf state address) :
    leafEntry (words after) (leaf after) page =
      (leafEntry (words state) (leaf state) page).map (setReadwrite · false) := by
  rw [cleared.fixed, leafEntry, leafEntry, Option.map_map]
  refine Option.map_congr fun place found => ?_
  rw [comp_apply, cleared.entries, if_pos ⟨address, member, same.symm.trans found⟩]

theorem ClearedLeaves.apart (cleared : ClearedLeaves words leaf addresses state after)
    (none : ¬ ∃ address ∈ addresses, leaf state page = leaf state address) :
    leafEntry (words after) (leaf after) page = leafEntry (words state) (leaf state) page := by
  rw [cleared.fixed, leafEntry, leafEntry]
  refine Option.map_congr fun place found => ?_
  rw [cleared.entries, if_neg]
  rintro ⟨address, member, same⟩
  exact none ⟨address, member, found.trans same.symm⟩

section
variable (cleared : ClearedLeaves words leaf (visitedPages begin limit) state after)
include cleared

/-- A writable page that shares its entry with an address visited is changed, so that it has to
be visited itself. -/
theorem Covered.alone
    (covered : CoveredBy words leaf begin limit (visitedPages begin limit) state after)
    (linear : LinearPage arch page) (member : address ∈ visitedPages begin limit)
    (same : leaf state page = leaf state address)
    (entry : leafEntry (words state) (leaf state) page = some pte)
    (writable : isReadwrite pte = true) :
    Visited begin limit page := by
  refine covered.passed page linear fun unchanged => ?_
  rw [cleared.shared member same, entry, Option.map_some, Option.some.injEq,
    setReadwrite_false_eq_iff] at unchanged
  rw [writable] at unchanged
  cases unchanged

theorem Covered.coverable (ordered : begin < limit)
    (mapped : RangeMapped arch (leaf state) begin limit) (terminates : Terminates arch begin limit)
    (covered : CoveredBy words leaf begin limit (visitedPages begin limit) state after) :
    Coverable arch (words state) (leaf state) begin limit where
  terminates := terminates
  alone := by
    rintro page linear address member same ⟨pte, entry, writable⟩
    exact covered.alone cleared linear member same entry writable
  last := by
    refine or_iff_not_imp_left.mpr fun missed => ?_
    have aligned : (limit - 1) / pageSize * pageSize % pageSize = 0 := Nat.mul_mod_left ..
    have touches : Touches begin limit ((limit - 1) / pageSize * pageSize) := by
      simp only [Touches, pageSize]
      omega
    have linear : LinearPage arch ((limit - 1) / pageSize * pageSize) :=
      ⟨aligned, (mapped _ aligned touches).1⟩
    have unvisited : ¬ Visited begin limit ((limit - 1) / pageSize * pageSize) := fun visited =>
      missed (((visited_iff aligned).mp visited).2 rfl)
    obtain ⟨pte, entry, readonly⟩ := covered.cleared _ linear touches
    by_cases twin : ∃ address ∈ visitedPages begin limit,
        leaf state ((limit - 1) / pageSize * pageSize) = leaf state address
    · obtain ⟨address, member, same⟩ := twin
      rw [cleared.shared member same] at entry
      obtain ⟨old, found, _⟩ := Option.map_eq_some_iff.mp entry
      refine ⟨old, found, Bool.eq_false_iff.mpr fun writable => unvisited ?_⟩
      exact covered.alone cleared linear member same found writable
    · rw [cleared.apart twin] at entry
      exact ⟨pte, entry, readonly⟩

theorem Coverable.unchanged (coverable : Coverable arch (words state) (leaf state) begin limit)
    (linear : LinearPage arch page) (unvisited : ¬ Visited begin limit page) :
    leafEntry (words after) (leaf after) page = leafEntry (words state) (leaf state) page := by
  by_cases twin : ∃ address ∈ visitedPages begin limit, leaf state page = leaf state address
  · obtain ⟨address, member, same⟩ := twin
    rw [cleared.shared member same]
    cases entry : leafEntry (words state) (leaf state) page with
    | none => rfl
    | some pte =>
      rw [Option.map_some, Option.some.injEq, setReadwrite_false_eq_iff, Bool.eq_false_iff]
      intro writable
      exact unvisited (coverable.alone page linear address member same ⟨pte, entry, writable⟩)
  · exact cleared.apart twin

end

theorem Coverable.covered (protects : Protects words leaf protect)
    (cleared : ClearedLeaves words leaf (visitedPages begin limit) state after)
    (mapped : RangeMapped arch (leaf state) begin limit)
    (coverable : Coverable arch (words state) (leaf state) begin limit) :
    CoveredBy words leaf begin limit (visitedPages begin limit) state after where
  cleared page linear touches := by
    by_cases visited : Visited begin limit page
    · obtain ⟨address, member, together⟩ := visited
      have same : leaf state page = leaf state address := by
        rw [protects.page state address, together, Nat.div_mul_cancel (Nat.dvd_of_mod_eq_zero linear.aligned)]
      obtain ⟨place, found⟩ := Option.isSome_iff_exists.mp (mapped page linear.aligned touches).2
      refine ⟨setReadwrite (words state place.1 place.2) false, ?_, isReadwrite_setReadwrite⟩
      rw [cleared.shared member same, leafEntry, found]
      rfl
    · -- only the last page of the range can have been missed
      have missed := visited
      rw [visited_iff linear.aligned] at missed
      obtain ⟨rfl, offset⟩ := Classical.not_imp.mp (not_and.mp missed touches)
      obtain ⟨pte, entry, readonly⟩ := coverable.last.resolve_left offset
      refine ⟨pte, ?_, readonly⟩
      rw [coverable.unchanged cleared linear visited, entry]
  kept page linear outside := by
    refine coverable.unchanged cleared linear fun visited => outside ?_
    exact ((visited_iff linear.aligned).mp visited).1
  passed page linear changed := by
    by_contra unvisited
    exact changed (coverable.unchanged cleared linear unvisited)

/-- The whole call, with the addresses that it passes to the memory management unit. -/
theorem Protects.call_iff (protects : Protects words leaf protect) (ordered : begin < limit)
    (small : limit < arch.modulus) (mapped : RangeMapped arch (leaf state) begin limit) :
    (∃ after invalidated, (forPages arch protect limit arch.modulus begin state).bind (fun after =>
        (invalidatePages arch PageLoop.note [] begin limit).map (after, ·)) = some (after, invalidated) ∧
      CoveredBy words leaf begin limit invalidated state after) ↔
      Coverable arch (words state) (leaf state) begin limit := by
  rw [invalidatePages, forPages_eq (ordered.trans small), forPages_eq (ordered.trans small)]
  by_cases terminates : Terminates arch begin limit
  · have found : ∀ address ∈ visitedPages begin limit, (leaf state address).isSome := by
      intro address member
      obtain ⟨low, high, _⟩ := mem_visitedPages.mp member
      rw [protects.page]
      refine (mapped _ (Nat.mul_mod_left _ _) ?_).2
      simp only [Touches, pageSize]
      omega
    obtain ⟨after, ran, cleared⟩ := protects.run (visitedPages begin limit) found
    have noted : Runs.run PageLoop.note [] (visitedPages begin limit) = some (visitedPages begin limit) := by
      have all := run_note id [] (visitedPages begin limit)
      rwa [List.map_id, List.nil_append] at all
    rw [if_pos terminates, if_pos terminates, ran, noted]
    simp only [Option.bind_some, Option.map_some, Option.some.injEq, Prod.mk.injEq]
    constructor
    · rintro ⟨_, _, ⟨rfl, rfl⟩, covered⟩
      exact covered.coverable cleared ordered mapped terminates
    · intro coverable
      exact ⟨after, _, ⟨rfl, rfl⟩, coverable.covered protects cleared mapped⟩
  · rw [if_neg terminates]
    refine iff_of_false ?_ fun coverable => terminates coverable.terminates
    rintro ⟨after, invalidated, ended, _⟩
    cases ended

end

end

theorem getTableAddress_clearAt (words : Words arch) (place : Nat × Nat) (table index : Nat) :
    getTableAddress (clearAt words place table index) = getTableAddress (words table index) := by
  rw [clearAt_apply]
  split
  · exact getTableAddress_setFlag (by decide)
  · rfl

theorem locate_page (arch : Arch) (address : Nat) : locate arch (address / pageSize * pageSize) = locate arch address :=
  locate_congr (Nat.mul_div_cancel _ (by decide))

theorem unmanaged_protects (arch : Arch) (frames cr3 : Nat) :
    @Protects arch (State arch frames) State.words (resolverLeaf cr3) (unmanagedActions cr3).protect where
  step state page place found := by
    refine ⟨{ state with words := clearAt state.words place }, ?_, rfl, funext fun other => ?_⟩
    · rw [resolverLeaf] at found
      simp [unmanagedActions, found, State.setWord, clearAt]
    · rw [resolverLeaf, resolverLeaf, Resolver.getPageTableEntry, Resolver.getPageTableEntry,
        resolve_eq_of_reads fun read _ => getTableAddress_clearAt state.words place read.1 read.2]
  page state address := by
    rw [resolverLeaf, resolverLeaf, Resolver.getPageTableEntry, Resolver.getPageTableEntry, locate_page]

theorem managed_protects (frames root : Nat) :
    @Protects .i386 (State .i386 frames) State.words (controllerLeaf root) (managedActions root).protect where
  step state page place found := by
    obtain ⟨table, below, rfl⟩ := Option.map_eq_some_iff.mp found
    obtain ⟨_, lower, here⟩ := Option.bind_eq_some_iff.mp below
    cases here
    have above : state.setWord root (locate .i386 page).root (state.words root (locate .i386 page).root) =
        state := by
      simp [State.setWord, update_eq_self]
    have reached : state.updatePath id root [(locate .i386 page).root] = some (state, table) := by
      simp [State.updatePath, above, lower]
    have path : (locate .i386 page).path = [] := rfl
    refine ⟨state.putEntry table (locate .i386 page).leaf
      ((state.entry table (locate .i386 page).leaf).setReadwrite false), ?_, rfl, rfl⟩
    simp [managedActions, setReadonlyPage, I386.setReadonlyPage, State.access, path, reached, State.putEntry,
      State.setWord]
  page state address := by
    rw [controllerLeaf, controllerLeaf, locate_page]

/-- `set_readonly` covers what the range overlaps if and only if its loop ends, the last page of
the range has an offset as far in as the first one or is read-only already, and no page outside
shares a writable leaf entry with a page visited. -/
theorem readonly_covers_iff (begin limit : Nat) (ordered : begin < limit) :
    (∀ (arch : Arch) (frames : Nat) (state : State arch frames) (cr3 : Nat),
      limit < arch.modulus → RangeMapped arch (resolverLeaf cr3 state) begin limit →
      ((∃ after invalidated, unmanagedSetReadonly cr3 state begin limit = some (after, invalidated) ∧
        Covered arch (leafEntry state.words (resolverLeaf cr3 state))
          (leafEntry after.words (resolverLeaf cr3 after)) begin limit invalidated) ↔
        Coverable arch state.words (resolverLeaf cr3 state) begin limit)) ∧
    ∀ (frames : Nat) (state : State .i386 frames) (root : Nat),
      limit < Arch.i386.modulus → RangeMapped .i386 (controllerLeaf root state) begin limit →
      ((∃ after invalidated, managedSetReadonly root state begin limit = some (after, invalidated) ∧
        Covered .i386 (leafEntry state.words (controllerLeaf root state))
          (leafEntry after.words (controllerLeaf root after)) begin limit invalidated) ↔
        Coverable .i386 state.words (controllerLeaf root state) begin limit) := by
  constructor
  · intro arch frames state cr3 small mapped
    rw [← (unmanaged_protects arch frames cr3).call_iff ordered small mapped]
    simp [unmanagedSetReadonly, GenericUnmanagedPhysicalMemoryMap, Option.map_eq_bind]
  · intro frames state root small mapped
    rw [← (managed_protects frames root).call_iff ordered small mapped]
    simp [managedSetReadonly, ManagedPhysicalMemoryMap, Option.map_eq_bind]

/-- One page table with writable pages, in the eyes of the resolver and of the controllers. -/
def sampleTable : State .i386 10 where
  words table index :=
    if table = 0xC0001000 ∧ index = 0 then 0x2003
    else if table = 0xC0002000 then BitVec.ofNat 32 (index * pageSize + 3)
    else 0
  lower table index := if table = 0xC0001000 ∧ index = 0 then some 0xC0002000 else none
  pageFrames _ _ := none
  supply := []
  allocator := .construct 10

theorem sampleTable_pages {begin limit : Nat} {leaf : Nat → Option (Nat × Nat)} (low : 0x1000 ≤ begin)
    (high : limit ≤ 0x3000) (first : (leaf 0x1000).isSome) (second : (leaf 0x2000).isSome) :
    RangeMapped .i386 leaf begin limit := by
  rintro page aligned ⟨below, above⟩
  simp only [pageSize] at aligned above
  have either : page = 0x1000 ∨ page = 0x2000 := by omega
  rcases either with rfl | rfl
  · exact ⟨by simp only [Canonical]; decide, first⟩
  · exact ⟨by simp only [Canonical]; decide, second⟩

theorem locate_i386 (address : Nat) : locate .i386 address = ⟨address / 2 ^ 22, [], address / 2 ^ 12 % 2 ^ 10⟩ := by
  have mask : 0x3FF = 2 ^ 10 - 1 := rfl
  rw [locate, I386.getIndexOfPml2EntryByAddress, I386.getIndexOfPml1EntryByAddress, mask,
    Nat.and_two_pow_sub_one_eq_mod, Nat.shiftRight_eq_div_pow, Nat.shiftRight_eq_div_pow]

/-- The leaf entries of the pages below 4 MB. -/
def sampleLeaf (page : Nat) : Option (Nat × Nat) :=
  if page / 2 ^ 22 = 0 then some (0xC0002000, page / 2 ^ 12 % 2 ^ 10) else none

theorem sampleTable_leaves : resolverLeaf 0x1000 sampleTable = sampleLeaf ∧
    controllerLeaf 0xC0001000 sampleTable = sampleLeaf := by
  have tables (index : Nat) : resolve sampleTable.words 0xC0001000 [index] = sampleTable.lower 0xC0001000 index := by
    by_cases first : index = 0
    · subst first
      decide +kernel
    · have empty : sampleTable.words 0xC0001000 index = 0 := by simp [sampleTable, first]
      rw [resolve, empty]
      simp only [sampleTable, first, and_false]
      decide +kernel
  have leaves (page : Nat) : (sampleTable.lower 0xC0001000 (page / 2 ^ 22)).map (·, page / 2 ^ 12 % 2 ^ 10) =
      sampleLeaf page := by
    simp only [sampleTable, true_and, sampleLeaf]
    split <;> rfl
  constructor <;> funext page
  · rw [resolverLeaf, Resolver.getPageTableEntry, locate_i386, ← leaves, ← tables]
    rfl
  · rw [controllerLeaf, locate_i386, ← leaves]
    simp only [State.descend, Option.bind_fun_some]

/-- The range ends as far into its last page as it begins in its first one. -/
theorem sampleTable_coverable : Coverable .i386 sampleTable.words sampleLeaf 0x1800 0x2900 where
  terminates := by decide
  alone page linear address member same _ := by
    have visited : ∀ address ∈ visitedPages 0x1800 0x2900, address = 0x1800 ∨ address = 0x2800 := by decide
    refine ⟨address, member, ?_⟩
    simp only [sampleLeaf] at same
    split at same
    · rcases visited address member with rfl | rfl <;> simp at same <;> simp only [pageSize] <;> omega
    · rcases visited address member with rfl | rfl <;> cases same
  last := .inl (by decide)

theorem readonly_covers_sample :
    (∃ after invalidated, unmanagedSetReadonly 0x1000 sampleTable 0x1800 0x2900 = some (after, invalidated) ∧
      Covered .i386 (leafEntry sampleTable.words (resolverLeaf 0x1000 sampleTable))
        (leafEntry after.words (resolverLeaf 0x1000 after)) 0x1800 0x2900 invalidated) ∧
    ∃ after invalidated, managedSetReadonly 0xC0001000 sampleTable 0x1800 0x2900 = some (after, invalidated) ∧
      Covered .i386 (leafEntry sampleTable.words (controllerLeaf 0xC0001000 sampleTable))
        (leafEntry after.words (controllerLeaf 0xC0001000 after)) 0x1800 0x2900 invalidated := by
  obtain ⟨unmanaged, managed⟩ := readonly_covers_iff 0x1800 0x2900 (by decide)
  obtain ⟨resolver, controller⟩ := sampleTable_leaves
  have mapped := @sampleTable_pages 0x1800 0x2900 sampleLeaf (by decide) (by decide) (by decide) (by decide)
  constructor
  · exact (unmanaged .i386 10 sampleTable 0x1000 (by decide) (resolver ▸ mapped)).mpr (resolver ▸ sampleTable_coverable)
  · exact (managed 10 sampleTable 0xC0001000 (by decide) (controller ▸ mapped)).mpr (controller ▸ sampleTable_coverable)

/-- The range begins in the middle of one page and ends near the start of the next one, which
stays writable and is not invalidated. -/
theorem last_page_stays_writable :
    Touches 0x1800 0x2100 0x2000 ∧ isReadwrite (0x2003 : Word .i386) = true ∧
      (unmanagedSetReadonly 0x1000 sampleTable 0x1800 0x2100).map (fun (after, invalidated) =>
        (leafEntry after.words (resolverLeaf 0x1000 after) 0x2000, invalidated)) =
          some (some 0x2003, [0x1800]) ∧
      (managedSetReadonly 0xC0001000 sampleTable 0x1800 0x2100).map (fun (after, invalidated) =>
        (leafEntry after.words (controllerLeaf 0xC0001000 after) 0x2000, invalidated)) =
          some (some 0x2003, [0x1800]) := by
  refine ⟨by decide, by decide, by decide +kernel, by decide +kernel⟩

end FlapjackOS.Paging
