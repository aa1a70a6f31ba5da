import FlapjackOS.Paging.MemoryMap

/-! `GenericConcretePhysicalMemoryMap`, which leaves the user's part of the address space to
the managed memory map and the kernel's part to the unmanaged one. -/

namespace FlapjackOS.Paging

open Frames Runs

variable {σ : Type} {arch : Arch} {frames begin limit : Nat}

/-- The interface that all memory maps implement, over a state that their calls change. -/
structure PhysicalMemoryMap (σ : Type) where
  mapPages : σ → Nat → Nat → ProtectionFlags → Option σ
  mapPage : σ → Nat → Nat → ProtectionFlags → Option σ
  setReadonly : σ → Nat → Nat → Option σ

/-- What a memory map does with one page: the body of the loop of `map_pages`, `map_page`
itself, and the body of the loop of `set_readonly`. -/
structure PageActions (σ : Type) where
  fill : ProtectionFlags → σ → Nat → Option σ
  map : σ → Nat → Nat → ProtectionFlags → Option σ
  protect : σ → Nat → Option σ

/-- The loops of `ManagedPhysicalMemoryMap`. -/
def ManagedPhysicalMemoryMap (arch : Arch) (actions : PageActions σ) : PhysicalMemoryMap σ where
  mapPages state begin limit flags :=
    if begin % pageSize = 0 ∧ begin < limit then
      forPages arch (actions.fill flags) limit arch.modulus begin state
    else none
  mapPage := actions.map
  setReadonly state begin limit := forPages arch actions.protect limit arch.modulus begin state

/-- The loops of `GenericUnmanagedPhysicalMemoryMap`. -/
def GenericUnmanagedPhysicalMemoryMap (arch : Arch) (actions : PageActions σ) : PhysicalMemoryMap σ where
  mapPages state begin limit flags :=
    if begin < limit then forPages arch (actions.fill flags) limit arch.modulus begin state
    else none
  mapPage := actions.map
  setReadonly state begin limit := forPages arch actions.protect limit arch.modulus begin state

/-- Before `heap_is_ready`, `managed_` is the null pointer. -/
structure GenericConcretePhysicalMemoryMap (σ : Type) where
  managed : Option (PhysicalMemoryMap σ)
  unmanaged : PhysicalMemoryMap σ

namespace GenericConcretePhysicalMemoryMap

variable (arch) (map : GenericConcretePhysicalMemoryMap σ) (state : σ)

def mapPages (begin limit : Nat) (flags : ProtectionFlags) : Option σ :=
  if begin % pageSize = 0 ∧ begin < limit then
    if limit < kernelVirtualStart arch then map.managed.bind (·.mapPages state begin limit flags)
    else map.unmanaged.mapPages state begin limit flags
  else none

def mapPage (physicalAddress linearAddress : Nat) (flags : ProtectionFlags) : Option σ :=
  if linearAddress < kernelVirtualStart arch then
    map.managed.bind (·.mapPage state physicalAddress linearAddress flags)
  else map.unmanaged.mapPage state physicalAddress linearAddress flags

def setReadonly (begin limit : Nat) : Option σ :=
  if begin < limit then
    if limit < kernelVirtualStart arch then map.managed.bind (·.setReadonly state begin limit)
    else map.unmanaged.setReadonly state begin limit
  else none

end GenericConcretePhysicalMemoryMap

/-- The two memory maps behind the concrete one. -/
inductive SubMap where
  | managed
  | unmanaged
  deriving DecidableEq, Repr

/-- The concrete memory map over both sub-maps, once the heap is ready. -/
def concreteMap (arch : Arch) (actions : SubMap → PageActions σ) : GenericConcretePhysicalMemoryMap σ where
  managed := some (ManagedPhysicalMemoryMap arch (actions .managed))
  unmanaged := GenericUnmanagedPhysicalMemoryMap arch (actions .unmanaged)

/-- The paging structure that the resolver comes to, or `none` for the null pointer. It does
not ask whether the entries on the way are present. -/
def resolve (words : Words arch) (table : Nat) : List Nat → Option Nat
  | [] => if table = 0 then none else some table
  | index :: path =>
    if table = 0 then none
    else
      let address := getTableAddress (words table index)
      if address = 0 then none
      else resolve words (convertPhysicalToLogicalAddress arch address) path

/-- `get_page_table_entry`: the page table and the index of the entry, or `none` for the null
pointer. The resolver's index functions compute the same as the controllers'. -/
def Resolver.getPageTableEntry (words : Words arch) (cr3 linearAddress : Nat) : Option (Nat × Nat) :=
  let page := locate arch linearAddress
  (resolve words (convertPhysicalToLogicalAddress arch cr3) (page.root :: page.path)).map (·, page.leaf)

def unmanagedMapPage (cr3 : Nat) (state : State arch frames) (physicalAddress linearAddress : Nat)
    (flags : ProtectionFlags) : Option (State arch frames) := do
  let (table, leaf) ← Resolver.getPageTableEntry state.words cr3 linearAddress
  let pte ← setFrameAddress (state.words table leaf) physicalAddress
  let pte := setPresent pte (physicalAddress != 0)
  let pte := setReadwrite pte flags.writable
  let pte := setGlobal pte flags.global
  let pte := setSupervisor pte flags.supervisor
  return state.setWord table leaf pte

def unmanagedActions (cr3 : Nat) : PageActions (State arch frames) where
  fill flags state page := do
    let physicalAddress ← convertLogicalToPhysicalAddress arch page
    unmanagedMapPage cr3 state physicalAddress page flags
  map := unmanagedMapPage cr3
  protect state page := do
    let (table, leaf) ← Resolver.getPageTableEntry state.words cr3 page
    return state.setWord table leaf (setReadwrite (state.words table leaf) false)

def managedActions (root : Nat) : PageActions (State arch frames) where
  fill := mapPageInternal root
  map := mapPage root
  protect := setReadonlyPage root

section
variable {words changed : Words arch} {table : Nat} {path : List Nat}

/-- The entries that the resolver reads on the way down. -/
def resolveReads (words : Words arch) (table : Nat) : List Nat → List (Nat × Nat)
  | [] => []
  | index :: path => (table, index) ::
      resolveReads words (convertPhysicalToLogicalAddress arch (getTableAddress (words table index))) path

/-- The resolver depends on the table addresses that it reads, and on nothing else. -/
theorem resolve_eq_of_reads (same : ∀ place ∈ resolveReads words table path,
      getTableAddress (changed place.1 place.2) = getTableAddress (words place.1 place.2)) :
    resolve changed table path = resolve words table path := by
  induction path generalizing table with
  | nil => rfl
  | cons index path ih =>
    obtain ⟨here, below⟩ := List.forall_mem_cons.mp same
    dsimp only at here
    simp only [resolve, here]
    rw [ih below]

theorem index_of_reads (member : place ∈ resolveReads words table path) : place.2 ∈ path := by
  induction path generalizing table with
  | nil => cases member
  | cons index path ih =>
    rcases List.mem_cons.mp member with rfl | later
    · exact List.mem_cons_self
    · exact List.mem_cons_of_mem _ (ih later)

theorem resolve_append (words : Words arch) (table : Nat) (path rest : List Nat) :
    resolve words table (path ++ rest) = (resolve words table path).bind (resolve words · rest) := by
  induction path generalizing table with
  | nil =>
    by_cases null : table = 0
    · cases rest <;> simp [resolve, null]
    · simp [resolve, null]
  | cons index path ih =>
    simp only [List.cons_append, resolve]
    split
    · rfl
    · split
      · rfl
      · exact ih _

theorem resolve_ne_zero (found : resolve words table path = some reached) : reached ≠ 0 := by
  induction path generalizing table with
  | nil =>
    rw [resolve] at found
    split at found
    · cases found
    · cases found
      assumption
  | cons index path ih =>
    simp only [resolve] at found
    split at found
    · cases found
    · split at found
      · cases found
      · exact ih found

end

section

/-- A sub-map that notes which pages it is handed. -/
def recorder (sub : SubMap) : PageActions (List (SubMap × Nat)) where
  fill _ handed page := some (handed ++ [(sub, page)])
  map handed _ linearAddress _ := some (handed ++ [(sub, linearAddress)])
  protect handed page := some (handed ++ [(sub, page)])

/-- The pages that `map_pages` hands to the sub-maps, in order. -/
def handedByMapPages (arch : Arch) (begin limit : Nat) (flags : ProtectionFlags) :
    Option (List (SubMap × Nat)) :=
  (concreteMap arch recorder).mapPages arch [] begin limit flags

def handedByMapPage (arch : Arch) (physicalAddress linearAddress : Nat) (flags : ProtectionFlags) :
    Option (List (SubMap × Nat)) :=
  (concreteMap arch recorder).mapPage arch [] physicalAddress linearAddress flags

def handedBySetReadonly (arch : Arch) (begin limit : Nat) : Option (List (SubMap × Nat)) :=
  (concreteMap arch recorder).setReadonly arch [] begin limit

/-- The sub-map that a range is left to as a whole. -/
def subMapOf (arch : Arch) (limit : Nat) : SubMap :=
  if limit < kernelVirtualStart arch then .managed else .unmanaged

variable {actions : SubMap → PageActions σ} {state : σ} {flags : ProtectionFlags}

theorem concreteMap_mapPages (aligned : begin % pageSize = 0) (ordered : begin < limit) :
    (concreteMap arch actions).mapPages arch state begin limit flags =
      forPages arch ((actions (subMapOf arch limit)).fill flags) limit arch.modulus begin state := by
  rw [GenericConcretePhysicalMemoryMap.mapPages, if_pos ⟨aligned, ordered⟩, subMapOf]
  split
  · exact if_pos ⟨aligned, ordered⟩
  · exact if_pos ordered

theorem concreteMap_setReadonly (ordered : begin < limit) :
    (concreteMap arch actions).setReadonly arch state begin limit =
      forPages arch (actions (subMapOf arch limit)).protect limit arch.modulus begin state := by
  rw [GenericConcretePhysicalMemoryMap.setReadonly, if_pos ordered, subMapOf]
  split <;> rfl

theorem handedByMapPage_eq (arch : Arch) (physicalAddress linearAddress : Nat) (flags : ProtectionFlags) :
    handedByMapPage arch physicalAddress linearAddress flags =
      some [(subMapOf arch linearAddress, linearAddress)] := by
  rw [handedByMapPage, GenericConcretePhysicalMemoryMap.mapPage, subMapOf]
  split <;> rfl

theorem run_note {α : Type} (note : Nat → α) (noted : List α) (pages : List Nat) :
    run (fun noted page => some (noted ++ [note page])) noted pages = some (noted ++ pages.map note) := by
  induction pages generalizing noted with
  | nil => simp [run]
  | cons page rest ih => simp [run, ih]

theorem handedByMapPages_eq (aligned : begin % pageSize = 0) (ordered : begin < limit)
    (small : limit < arch.modulus) (flags : ProtectionFlags) :
    handedByMapPages arch begin limit flags =
      if Terminates arch begin limit then some ((visitedPages begin limit).map (subMapOf arch limit, ·))
      else none := by
  rw [handedByMapPages, concreteMap_mapPages aligned ordered, forPages_eq (ordered.trans small)]
  exact if_congr Iff.rfl (run_note _ _ _) rfl

theorem handedBySetReadonly_eq (ordered : begin < limit) (small : limit < arch.modulus) :
    handedBySetReadonly arch begin limit =
      if Terminates arch begin limit then some ((visitedPages begin limit).map (subMapOf arch limit, ·))
      else none := by
  rw [handedBySetReadonly, concreteMap_setReadonly ordered, forPages_eq (ordered.trans small)]
  exact if_congr Iff.rfl (run_note _ _ _) rfl

end

/-- The pages handed over are those of the range, each to the sub-map that `map_page` chooses. -/
def Dispatched (arch : Arch) (begin limit : Nat) (handed : Option (List (SubMap × Nat))) : Prop :=
  ∃ pages, handed = some pages ∧ ∀ sub page, (sub, page) ∈ pages ↔
    begin ≤ page ∧ page < limit ∧ page % pageSize = 0 ∧
      ∀ physicalAddress flags, handedByMapPage arch physicalAddress page flags = some [(sub, page)]

/-- The range ends below the kernel's part of the address space, or begins in it. -/
def Apart (arch : Arch) (begin limit : Nat) : Prop :=
  limit < kernelVirtualStart arch ∨ kernelVirtualStart arch ≤ begin

instance : Decidable (Apart arch begin limit) := inferInstanceAs (Decidable (_ ∨ _))

/-- In such a range every page belongs where the whole range goes, and in no other range does
its first page. -/
theorem subMapOf_iff (ordered : begin < limit) :
    Apart arch begin limit ↔ ∀ page, begin ≤ page → page < limit →
      page % pageSize = begin % pageSize → subMapOf arch page = subMapOf arch limit := by
  simp only [Apart, subMapOf]
  constructor
  · intro apart page low high _
    have same : page < kernelVirtualStart arch ↔ limit < kernelVirtualStart arch := by omega
    rw [if_congr same rfl rfl]
  · intro same
    have first := same begin le_rfl ordered rfl
    by_contra straddles
    rw [if_pos (by omega), if_neg (by omega)] at first
    cases first

theorem dispatched_iff (aligned : begin % pageSize = 0) (ordered : begin < limit)
    (all : handed = if Terminates arch begin limit then
      some ((visitedPages begin limit).map (subMapOf arch limit, ·)) else none) :
    Dispatched arch begin limit handed ↔ Terminates arch begin limit ∧ Apart arch begin limit := by
  rw [all, Dispatched]
  by_cases terminates : Terminates arch begin limit
  · rw [if_pos terminates, subMapOf_iff ordered]
    simp only [Option.some.injEq, exists_eq_left', handedByMapPage_eq, List.mem_map, mem_visitedPages,
      Prod.mk.injEq, List.cons.injEq, and_true, forall_const, aligned, terminates, true_and]
    constructor
    · intro exact page low high whole
      obtain ⟨_, _, _, same⟩ := (exact (subMapOf arch limit) page).mp ⟨page, ⟨low, high, whole⟩, rfl, rfl⟩
      exact same
    · intro same sub page
      constructor
      · rintro ⟨_, ⟨low, high, whole⟩, rfl, rfl⟩
        exact ⟨low, high, whole, same _ low high whole⟩
      · rintro ⟨low, high, whole, rfl⟩
        exact ⟨page, ⟨low, high, whole⟩, (same page low high whole).symm, rfl⟩
  · rw [if_neg terminates]
    simp [terminates]

theorem ranges_dispatched_iff (aligned : begin % pageSize = 0) (ordered : begin < limit)
    (small : limit < arch.modulus) (flags : ProtectionFlags) :
    Dispatched arch begin limit (handedByMapPages arch begin limit flags) ∧
        Dispatched arch begin limit (handedBySetReadonly arch begin limit) ↔
      Terminates arch begin limit ∧ Apart arch begin limit := by
  rw [dispatched_iff aligned ordered (handedByMapPages_eq aligned ordered small flags),
    dispatched_iff aligned ordered (handedBySetReadonly_eq ordered small), and_self]

theorem ranges_dispatched_sample :
    (Dispatched .x86_64 0x400000 0x402000 (handedByMapPages .x86_64 0x400000 0x402000 2) ∧
      Dispatched .x86_64 0x400000 0x402000 (handedBySetReadonly .x86_64 0x400000 0x402000)) ∧
    ¬ (Dispatched .i386 0xBFFFF000 0xC0001000 (handedByMapPages .i386 0xBFFFF000 0xC0001000 2) ∧
      Dispatched .i386 0xBFFFF000 0xC0001000 (handedBySetReadonly .i386 0xBFFFF000 0xC0001000)) := by
  rw [ranges_dispatched_iff (by decide) (by decide) (by decide),
    ranges_dispatched_iff (by decide) (by decide) (by decide)]
  decide

/-- The last user page of i386, alone in its range, goes to the unmanaged map. -/
theorem last_user_page_unmanaged :
    handedByMapPages .i386 0xBFFFF000 0xC0000000 2 = some [(.unmanaged, 0xBFFFF000)] ∧
      handedBySetReadonly .i386 0xBFFFF000 0xC0000000 = some [(.unmanaged, 0xBFFFF000)] ∧
      handedByMapPage .i386 0x1000 0xBFFFF000 2 = some [(.managed, 0xBFFFF000)] := by
  decide +kernel

end FlapjackOS.Paging
