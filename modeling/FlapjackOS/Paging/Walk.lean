import FlapjackOS.Paging.Access

namespace FlapjackOS.Paging

variable {arch : Arch} {frames : Nat} {state : State arch frames} {space : Space arch frames}
  {words other origin : Words arch} {table leaf root : Nat}
  {path query tables pool : List Nat} {readwrite : Bool} {page : PageIndex} {place : Nat → List Nat}

/-- What a page table entry says: whether it permits writing, and the frame. -/
def readEntry (word : Word arch) : Option (Bool × Nat) :=
  if isPresent word then some (isReadwrite word, frameAddress word) else none

/-- An entry above adds its permission. -/
def restrict (readwrite : Bool) (result : Bool × Nat) : Bool × Nat := (readwrite && result.1, result.2)

/-- The processor's walk. All entries have PS = 0. -/
def walk (words : Words arch) (table : Nat) : List Nat → Nat → Option (Bool × Nat)
  | [], leaf => readEntry (words table leaf)
  | index :: path, leaf =>
    let word := words table index
    if isPresent word then
      (walk words (convertPhysicalToLogicalAddress arch (getTableAddress word)) path leaf).map
        (restrict (isReadwrite word))
    else none

/-- The effective permission of a page and the frame it is mapped to. -/
def walkPage (words : Words arch) (root : Nat) (page : PageIndex) : Option (Bool × Nat) :=
  walk words root (page.root :: page.path) page.leaf

/-- The structures below `table` that the walk reads. -/
def walkTables (words : Words arch) (table : Nat) : List Nat → List Nat
  | [] => []
  | index :: path =>
    let word := words table index
    if isPresent word then
      let below := convertPhysicalToLogicalAddress arch (getTableAddress word)
      below :: walkTables words below path
    else []

/-- The structures that the walks from `root` read are not the ones in the pool. -/
def Separate (root : Nat) (pool : List Nat) (origin : Words arch) : Prop :=
  ∀ index path, path.length + 1 = depth arch →
    ∀ t ∈ walkTables origin root (index :: path), t ≠ root ∧ t ∉ pool

/-- The walk in an address space, where `foreign` walks from the closed entries. -/
def Space.walk (foreign : PageIndex → Option (Bool × Nat)) (space : Space arch frames)
    (page : PageIndex) : Option (Bool × Nat) :=
  match space.regions page.root with
  | none => foreign page
  | some region =>
    if region.path = page.path then
      (readEntry (region.entries page.leaf).pte).map (restrict region.readwrite)
    else none

/-- The entry of the page that the controllers lead to. -/
def State.getEntry (state : State arch frames) (root : Nat) (page : PageIndex) :
    Option (PageEntry arch) :=
  (state.descend root (page.root :: page.path)).map (fun table => state.entry table page.leaf)

def Space.getEntry (space : Space arch frames) (page : PageIndex) : Option (PageEntry arch) :=
  (space.regions page.root).bind
    (fun region => if region.path = page.path then some (region.entries page.leaf) else none)

theorem restrict_restrict (first second : Bool) (result : Bool × Nat) :
    restrict first (restrict second result) = restrict (first && second) result := by
  simp [restrict, Bool.and_assoc]

/-- A walk only depends on the structures it reads. -/
theorem walk_congr (first : other table = words table)
    (same : ∀ t ∈ walkTables words table path, other t = words t) (leaf : Nat) :
    walk other table path leaf = walk words table path leaf := by
  induction path generalizing table with
  | nil => rw [walk, walk, first]
  | cons index path ih =>
    rw [walk, walk, first]
    split
    · next present =>
      simp only [walkTables, present, if_true] at same
      rw [ih (same _ List.mem_cons_self) (fun t member => same t (List.mem_cons_of_mem _ member))]
    · rfl

/-- The processor and the controllers see the same chain. -/
theorem Stem.walk (stem : Stem state table path tables readwrite leaf)
    (good : ∀ t ∈ tables, KernelTable arch t) (same : query.length = path.length) (i : Nat) :
    Paging.walk state.words table query i =
      if path = query then (readEntry (state.words leaf i)).map (restrict readwrite) else none := by
  induction stem generalizing query with
  | leaf =>
    obtain rfl : query = [] := List.length_eq_zero_iff.mp same
    have neutral : restrict true = id := rfl
    simp [Paging.walk, neutral]
  | link linked sole rest ih =>
    rename_i table index below path tables readwrite leaf
    cases query with
    | nil => cases same
    | cons next query =>
      by_cases here : next = index
      · subst here
        have logical := (good below List.mem_cons_self).logical
        have later := ih (fun t member => good t (List.mem_cons_of_mem _ member)) (Nat.succ.inj same)
        simp only [Paging.walk, linked.present, if_true, linked.address, logical, later,
          List.cons.injEq, true_and]
        split
        · rw [Option.map_map]
          exact congrArg (Option.map · _) (funext fun result => restrict_restrict _ _ result)
        · rfl
      · have absent : isPresent (state.words table next) = false := by
          rw [(sole next here).2, isPresent_zero]
        simp [Paging.walk, absent, Ne.symm here]

section
variable (represents : Represents root pool origin place state space)
include represents

theorem Represents.walk_opened {region : Region arch} (setup : Setup arch root pool)
    (deep : page.path.length + 1 = depth arch) (opened : space.regions page.root = some region) :
    walkPage state.words root page =
      if region.path = page.path then
        (readEntry (region.entries page.leaf).pte).map (restrict region.readwrite)
      else none := by
  obtain ⟨below, rest, readwrite, leaf, placed, linked, stem, writable, entries⟩ :=
    (represents.opened page.root region opened).chain
  have good : ∀ t ∈ below :: rest, KernelTable arch t := fun t member =>
    setup.tables t (represents.placement.taken page.root t (placed ▸ member)).1
  have length : page.path.length = region.path.length := by
    have := represents.deep page.root region opened
    omega
  have below_walk := stem.walk (fun t member => good t (List.mem_cons_of_mem _ member)) length page.leaf
  simp only [walkPage, Paging.walk, linked.present, if_true, linked.address,
    (good below List.mem_cons_self).logical, below_walk]
  split
  · rw [Option.map_map, entries, writable]
    exact congrArg (Option.map · _) (funext fun result => restrict_restrict _ _ result)
  · rfl

theorem Represents.walk (setup : Setup arch root pool) (separate : Separate root pool origin)
    (deep : page.path.length + 1 = depth arch) :
    walkPage state.words root page = space.walk (walkPage origin root) page := by
  cases entry : space.regions page.root with
  | none =>
    have word := (represents.closed page.root entry).2
    have apart := separate page.root page.path deep
    simp only [Space.walk, entry, walkPage, Paging.walk, word]
    split
    · next present =>
      simp only [walkTables, present, if_true] at apart
      have same : ∀ t, t ≠ root ∧ t ∉ pool → state.words t = origin t :=
        fun t outside => represents.outside t outside.1 outside.2
      rw [walk_congr (same _ (apart _ List.mem_cons_self))
        (fun t member => same t (apart t (List.mem_cons_of_mem _ member)))]
    · rfl
  | some region =>
    rw [represents.walk_opened setup deep entry, Space.walk, entry]

theorem Represents.getEntry (deep : page.path.length + 1 = depth arch) :
    state.getEntry root page = space.getEntry page := by
  cases entry : space.regions page.root with
  | none => simp [State.getEntry, Space.getEntry, State.descend, entry, (represents.closed _ entry).1]
  | some region =>
    by_cases path : region.path = page.path
    · obtain ⟨below, rest, readwrite, leaf, _, linked, stem, _, entries⟩ :=
        (represents.opened page.root region entry).chain
      rw [path] at stem
      simp [State.getEntry, Space.getEntry, State.descend, entry, path, linked.lower,
        stem.descend_leaf, entries]
    · rw [State.getEntry, represents.descend_none entry deep path]
      simp [Space.getEntry, entry, path]

end

end FlapjackOS.Paging
