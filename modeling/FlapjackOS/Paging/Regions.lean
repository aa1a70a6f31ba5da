import FlapjackOS.Paging.Controller

/-! The abstract address space. Each entry of the top level structure is either
closed or opens a region: a chain of structures down to one page table. -/

namespace FlapjackOS.Paging

open Frames

/-- The number of entries of a paging structure. -/
def entryCount : Arch → Nat
  | .i386 => 1024
  | .x86_64 => 512

/-- The number of paging structures below the top level on the way to a page. -/
def depth : Arch → Nat
  | .i386 => 1
  | .x86_64 => 3

theorem locate_depth (arch : Arch) (linearAddress : Nat) :
    (locate arch linearAddress).path.length + 1 = depth arch := by
  cases arch <;> rfl

theorem X86_64.getIndexOfPml4EntryByAddress_lt (linearAddress : Nat) :
    getIndexOfPml4EntryByAddress linearAddress < 512 := by
  have mask : (0x1FF : Nat) < 2 ^ 9 := by decide
  exact Nat.and_lt_two_pow _ mask

theorem locate_root_lt {arch : Arch} {linearAddress : Nat} (small : linearAddress < arch.modulus) :
    (locate arch linearAddress).root < entryCount arch := by
  cases arch with
  | i386 =>
    have bound : linearAddress < 2 ^ 32 := small
    simp only [locate, I386.getIndexOfPml2EntryByAddress, entryCount, Nat.shiftRight_eq_div_pow]
    omega
  | x86_64 => exact X86_64.getIndexOfPml4EntryByAddress_lt linearAddress

/-- An address for a paging structure: page-aligned and above the start of the kernel. -/
structure KernelTable (arch : Arch) (table : Nat) : Prop where
  aligned : table % pageSize = 0
  low : kernelVirtualStart arch < table
  high : table < arch.modulus

/-- A region: the indexes between the top level and its page table, whether all the
entries above the page table permit writing, and the entries of the page table. -/
structure Region (arch : Arch) where
  path : List Nat
  readwrite : Bool
  entries : Nat → PageEntry arch

/-- The entries of a new page table. -/
def PageEntry.blank {arch : Arch} : PageEntry arch where
  pte := 0
  pageFrame := none

/-- The abstract state. -/
structure Space (arch : Arch) (frames : Nat) where
  regions : Nat → Option (Region arch)
  allocator : PageFrameAllocator frames

section
variable {arch : Arch} {frames : Nat}

/-- The controller and the word of an entry agree on the structure they refer to. -/
structure Link (state : State arch frames) (table index below : Nat) : Prop where
  lower : state.lower table index = some below
  present : isPresent (state.words table index) = true
  address : getTableAddress (state.words table index) = below - kernelVirtualStart arch

/-- No other entry of the structure is in use. -/
def Sole (state : State arch frames) (table index : Nat) : Prop :=
  ∀ other, other ≠ index → state.lower table other = none ∧ state.words table other = 0

/-- The chain of `tables` that leads along `path` from `table` to the page table `leaf`,
with the conjunction of the R/W bits on the way. -/
inductive Stem (state : State arch frames) : Nat → List Nat → List Nat → Bool → Nat → Prop where
  | leaf : Stem state table [] [] true table
  | link (linked : Link state table index below) (sole : Sole state table index)
      (rest : Stem state below path tables readwrite leaf) :
      Stem state table (index :: path) (below :: tables)
        (isReadwrite (state.words table index) && readwrite) leaf

/-- The entry `index` of `root` opens a region. -/
inductive Opened (state : State arch frames) (root index : Nat) : List Nat → Region arch → Prop where
  | intro (linked : Link state root index below) (stem : Stem state below path tables readwrite leaf) :
      Opened state root index (below :: tables) {
        path
        readwrite := isReadwrite (state.words root index) && readwrite
        entries := state.entry leaf }

/-- The two states agree on a paging structure and its controller. -/
structure SameTable (state after : State arch frames) (table : Nat) : Prop where
  words : after.words table = state.words table
  lower : after.lower table = state.lower table
  pageFrames : after.pageFrames table = state.pageFrames table

variable {state after : State arch frames} {table index below leaf : Nat} {path tables : List Nat}
  {readwrite : Bool}

theorem SameTable.refl (state : State arch frames) (table : Nat) : SameTable state state table :=
  ⟨rfl, rfl, rfl⟩

theorem SameTable.trans {last : State arch frames} (first : SameTable state after table)
    (second : SameTable after last table) : SameTable state last table :=
  ⟨second.words.trans first.words, second.lower.trans first.lower,
    second.pageFrames.trans first.pageFrames⟩

theorem SameTable.entry (same : SameTable state after table) : after.entry table = state.entry table := by
  funext i
  simp only [State.entry, same.words, same.pageFrames]

theorem Link.congr (linked : Link state table index below)
    (words : after.words table index = state.words table index)
    (lower : after.lower table index = state.lower table index) : Link after table index below where
  lower := lower.trans linked.lower
  present := by rw [words, linked.present]
  address := by rw [words, linked.address]

/-- A chain goes on from a structure that is the same. -/
theorem SameTable.link (here : SameTable state after table) (linked : Link state table index below)
    (sole : Sole state table index) (rest : Stem after below path tables readwrite leaf) :
    Stem after table (index :: path) (below :: tables)
      (isReadwrite (state.words table index) && readwrite) leaf := by
  rw [← here.words]
  refine .link (linked.congr (by rw [here.words]) (by rw [here.lower])) (fun other different => ?_) rest
  rw [here.lower, here.words]
  exact sole other different

section
variable (stem : Stem state table path tables readwrite leaf)
include stem

theorem Stem.congr (same : ∀ t ∈ table :: tables, SameTable state after t) :
    Stem after table path tables readwrite leaf := by
  induction stem with
  | leaf => exact .leaf
  | link linked sole rest ih =>
    have here := same _ List.mem_cons_self
    exact here.link linked sole (ih fun t member => same t (List.mem_cons_of_mem _ member))

theorem Stem.leaf_mem : leaf ∈ table :: tables := by
  induction stem with
  | leaf => exact List.mem_cons_self
  | link _ _ _ ih => exact List.mem_cons_of_mem _ ih

/-- The contents of the page table do not matter to the chain that leads to it. -/
theorem Stem.congr_above (distinct : (table :: tables).Nodup)
    (same : ∀ t ∈ table :: tables, t ≠ leaf → SameTable state after t) :
    Stem after table path tables readwrite leaf := by
  induction stem with
  | leaf => exact .leaf
  | link linked sole rest ih =>
    obtain ⟨outside, inner⟩ := List.nodup_cons.mp distinct
    have here := same _ List.mem_cons_self (fun same => outside (same ▸ rest.leaf_mem))
    exact here.link linked sole (ih inner fun t member => same t (List.mem_cons_of_mem _ member))

theorem Stem.length : tables.length = path.length := by
  induction stem with
  | leaf => rfl
  | link _ _ _ ih => rw [List.length_cons, List.length_cons, ih]

/-- Following the controllers leads down the chain and nowhere else. -/
theorem Stem.descend (short : query.length ≤ path.length) :
    state.descend table query =
      if query <+: path then (table :: tables)[query.length]? else none := by
  induction stem generalizing query with
  | leaf =>
    obtain rfl : query = [] := List.length_eq_zero_iff.mp (Nat.le_zero.mp short)
    simp [State.descend]
  | link linked sole rest ih =>
    rename_i index below path tables readwrite leaf
    cases query with
    | nil => simp [State.descend]
    | cons next query =>
      by_cases same : next = index
      · subst same
        simp only [State.descend, linked.lower, Option.bind_some, List.length_cons]
        rw [ih (by simpa using short)]
        simp [List.cons_prefix_cons]
      · simp [State.descend, (sole next same).1, List.cons_prefix_cons, same]

theorem Stem.descend_leaf : state.descend table path = some leaf := by
  induction stem with
  | leaf => rfl
  | link linked _ _ ih => rw [State.descend, linked.lower, Option.bind_some, ih]

end

theorem Opened.congr {root : Nat} {region : Region arch} (opened : Opened state root index tables region)
    (words : after.words root index = state.words root index)
    (lower : after.lower root index = state.lower root index)
    (same : ∀ t ∈ tables, SameTable state after t) : Opened after root index tables region := by
  cases opened with
  | intro linked stem =>
    rw [← words, ← (same _ stem.leaf_mem).entry]
    exact .intro (linked.congr words lower) (stem.congr same)

theorem Opened.chain {root : Nat} {region : Region arch} (opened : Opened state root index tables region) :
    ∃ below rest readwrite leaf, tables = below :: rest ∧ Link state root index below ∧
      Stem state below region.path rest readwrite leaf ∧
      region.readwrite = (isReadwrite (state.words root index) && readwrite) ∧
      region.entries = state.entry leaf := by
  cases opened with
  | intro linked stem => exact ⟨_, _, _, _, rfl, linked, stem, rfl, rfl⟩

end

end FlapjackOS.Paging
