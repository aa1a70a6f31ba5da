import FlapjackOS.Paging.Controller

/-! `ManagedPhysicalMemoryMap` of both platforms. -/

namespace FlapjackOS.Paging

open Frames Function Runs

/-- What a call does with an entry of a page table. -/
abbrev Use (arch : Arch) (frames : Nat) :=
  PageFrameAllocator frames → PageEntry arch → Option (PageFrameAllocator frames × PageEntry arch)

namespace State

variable {arch : Arch} {frames : Nat}

/-- Change the entries on the way down to a page table. -/
def updatePath (change : Word arch → Word arch) (state : State arch frames) (table : Nat) :
    List Nat → Option (State arch frames × Nat)
  | [] => some (state, table)
  | index :: path => do
    let state := state.setWord table index (change (state.words table index))
    let below ← state.lower table index
    state.updatePath change below path

/-- Change the entries above the page table of a page, then use the page's own entry. -/
def access (state : State arch frames) (root : Nat) (page : PageIndex)
    (change : Word arch → Word arch) (use : Use arch frames) : Option (State arch frames) := do
  let (state, table) ← state.updatePath change root (page.root :: page.path)
  let (allocator, entry) ← use state.allocator (state.entry table page.leaf)
  return { state.putEntry table page.leaf entry with allocator }

/-- Populate the tables for a page and access it. -/
def mapWith (state : State arch frames) (root : Nat) (page : PageIndex)
    (change : Word arch → Word arch) (use : Use arch frames) : Option (State arch frames) := do
  let state ← state.populate root (page.root :: page.path)
  state.access root page change use

end State

/-- The loop over the pages of a range, whose counter wraps around. -/
def forPages (arch : Arch) (body : σ → Nat → Option σ) (limit : Nat) : Nat → Nat → σ → Option σ
  | fuel, page, state =>
    if page < limit then
      match fuel with
      | 0 => none
      | fuel + 1 => (body state page).bind (forPages arch body limit fuel (arch.add page pageSize))
    else some state

/-- The addresses that the loop visits if its counter does not wrap around. -/
def visitedPages (begin limit : Nat) : List Nat :=
  (List.range ((limit - begin + (pageSize - 1)) / pageSize)).map (fun k => begin + k * pageSize)

/-- The loop counter gets past the limit. -/
def Terminates (arch : Arch) (begin limit : Nat) : Prop :=
  limit + pageSize ≤ arch.modulus + begin % pageSize

instance : Decidable (Terminates arch begin limit) := inferInstanceAs (Decidable (_ ≤ _))

namespace I386

variable {frames : Nat}

/-- What `map_page_internal` does with the entry of the page. -/
def fillEntry (flags : ProtectionFlags) : Use .i386 frames := fun allocator entry =>
  if entry.isPresent then some (allocator, entry.setProtection flags)
  else entry.setMappingFrom allocator flags

def mapPage (root : Nat) (state : State .i386 frames) (physicalAddress linearAddress : Nat)
    (flags : ProtectionFlags) : Option (State .i386 frames) :=
  state.mapWith root (locate .i386 linearAddress) (setTableProtection · flags)
    (fun allocator entry => entry.setMappingTo allocator physicalAddress flags)

def mapPageInternal (root : Nat) (flags : ProtectionFlags) (state : State .i386 frames)
    (linearAddress : Nat) : Option (State .i386 frames) :=
  state.mapWith root (locate .i386 linearAddress) (setTableProtection · flags) (fillEntry flags)

/-- The body of the loop of `set_readonly`. -/
def setReadonlyPage (root : Nat) (state : State .i386 frames) (linearAddress : Nat) :
    Option (State .i386 frames) :=
  state.access root (locate .i386 linearAddress) id
    (fun allocator entry => some (allocator, entry.setReadwrite false))

end I386

namespace X86_64

variable {frames : Nat}

/-- `set_entry_protection` of an entry above the page table. -/
def setEntryProtection (data : Word .x86_64) (flags : ProtectionFlags) : Word .x86_64 :=
  if isPresent data then setTableProtection data flags else data

/-- `set_entry_protection` of an entry of a page table. -/
def setPageEntryProtection (entry : PageEntry .x86_64) (flags : ProtectionFlags) :
    PageEntry .x86_64 :=
  if entry.isPresent then entry.setProtection flags else entry

/-- `set_entry_read_only` of an entry above the page table. -/
def setEntryReadOnly (data : Word .x86_64) : Word .x86_64 :=
  if isPresent data then setReadwrite data false else data

/-- `set_entry_read_only` of an entry of a page table. -/
def setPageEntryReadOnly (entry : PageEntry .x86_64) : PageEntry .x86_64 :=
  if entry.isPresent then entry.setReadwrite false else entry

def setPageFrameMapping (physicalAddress : Nat) (flags : ProtectionFlags) : Use .x86_64 frames :=
  fun allocator entry =>
    if entry.isPresent then some (allocator, entry.setProtection flags)
    else entry.setMappingTo allocator physicalAddress flags

def allocateAndSetPageFrameMapping (flags : ProtectionFlags) : Use .x86_64 frames :=
  fun allocator entry =>
    if entry.isPresent then some (allocator, entry.setProtection flags)
    else entry.setMappingFrom allocator flags

def mapPage (root : Nat) (state : State .x86_64 frames) (physicalAddress linearAddress : Nat)
    (flags : ProtectionFlags) : Option (State .x86_64 frames) :=
  state.mapWith root (locate .x86_64 linearAddress) (setEntryProtection · flags)
    (fun allocator entry =>
      setPageFrameMapping physicalAddress flags allocator (setPageEntryProtection entry flags))

def mapPageInternal (root : Nat) (flags : ProtectionFlags) (state : State .x86_64 frames)
    (linearAddress : Nat) : Option (State .x86_64 frames) :=
  state.mapWith root (locate .x86_64 linearAddress) (setEntryProtection · flags)
    (fun allocator entry =>
      allocateAndSetPageFrameMapping flags allocator (setPageEntryProtection entry flags))

def setReadonlyPage (root : Nat) (state : State .x86_64 frames) (linearAddress : Nat) :
    Option (State .x86_64 frames) :=
  state.access root (locate .x86_64 linearAddress) setEntryReadOnly
    (fun allocator entry => some (allocator, setPageEntryReadOnly entry))

end X86_64

section
variable {arch : Arch} {frames : Nat}

def mapPage : {arch : Arch} → Nat → State arch frames → Nat → Nat → ProtectionFlags →
    Option (State arch frames)
  | .i386 => I386.mapPage
  | .x86_64 => X86_64.mapPage

def mapPageInternal : {arch : Arch} → Nat → ProtectionFlags → State arch frames → Nat →
    Option (State arch frames)
  | .i386 => I386.mapPageInternal
  | .x86_64 => X86_64.mapPageInternal

def setReadonlyPage : {arch : Arch} → Nat → State arch frames → Nat → Option (State arch frames)
  | .i386 => I386.setReadonlyPage
  | .x86_64 => X86_64.setReadonlyPage

def mapPages (root : Nat) (state : State arch frames) (begin limit : Nat) (flags : ProtectionFlags) :
    Option (State arch frames) :=
  if begin % pageSize = 0 ∧ begin < limit then
    forPages arch (mapPageInternal root flags) limit arch.modulus begin state
  else none

def setReadonly (root : Nat) (state : State arch frames) (begin limit : Nat) :
    Option (State arch frames) :=
  forPages arch (setReadonlyPage root) limit arch.modulus begin state

/-- The calls that change the memory map. -/
inductive Call where
  | mapPage (physicalAddress linearAddress : Nat) (flags : ProtectionFlags)
  | mapPages (begin limit : Nat) (flags : ProtectionFlags)
  | setReadonly (begin limit : Nat)
  deriving DecidableEq, Repr

def step (root : Nat) (state : State arch frames) : Call → Option (State arch frames)
  | .mapPage physicalAddress linearAddress flags =>
    Paging.mapPage root state physicalAddress linearAddress flags
  | .mapPages begin limit flags => Paging.mapPages root state begin limit flags
  | .setReadonly begin limit => Paging.setReadonly root state begin limit

end

/-- Which page an address belongs to does not depend on its offset. -/
theorem locate_congr {arch : Arch} {first second : Nat} (same : first / pageSize = second / pageSize) :
    locate arch first = locate arch second := by
  have shifts : ∀ k, first >>> (12 + k) = second >>> (12 + k) := by
    intro k
    rw [Nat.shiftRight_add, Nat.shiftRight_add, Nat.shiftRight_eq_div_pow first,
      Nat.shiftRight_eq_div_pow second]
    exact congrArg (· >>> k) same
  cases arch with
  | i386 =>
    simp only [locate, I386.getIndexOfPml2EntryByAddress, I386.getIndexOfPml1EntryByAddress]
    rw [shifts 10, shifts 0]
  | x86_64 =>
    simp only [locate, X86_64.getIndexOfPml4EntryByAddress, X86_64.getIndexOfPml3EntryByAddress,
      X86_64.getIndexOfPml2EntryByAddress, X86_64.getIndexOfPml1EntryByAddress]
    rw [shifts 27, shifts 18, shifts 9, shifts 0]

section
variable {arch : Arch} {body : σ → Nat → Option σ} {begin limit : Nat}

theorem mem_visitedPages {address : Nat} : address ∈ visitedPages begin limit ↔
    begin ≤ address ∧ address < limit ∧ address % pageSize = begin % pageSize := by
  simp only [visitedPages, List.mem_map, List.mem_range, pageSize]
  constructor
  · rintro ⟨k, bound, rfl⟩
    omega
  · rintro ⟨low, high, aligned⟩
    exact ⟨(address - begin) / 4096, by omega, by omega⟩

theorem visitedPages_done (done : limit ≤ begin) : visitedPages begin limit = [] := by
  have none : (limit - begin + (pageSize - 1)) / pageSize = 0 := by
    simp only [pageSize]
    omega
  rw [visitedPages, none]
  rfl

theorem visitedPages_cons (more : begin < limit) :
    visitedPages begin limit = begin :: visitedPages (begin + pageSize) limit := by
  have count : (limit - begin + (pageSize - 1)) / pageSize =
      (limit - (begin + pageSize) + (pageSize - 1)) / pageSize + 1 := by
    simp only [pageSize]
    omega
  rw [visitedPages, count, List.range_succ_eq_map, List.map_cons, List.map_map, visitedPages]
  congr 1
  refine List.map_congr_left fun k _ => ?_
  simp only [comp_apply, pageSize]
  omega

/-- A loop that ends can go on to the next page, with one round less left. -/
theorem Terminates.next (terminates : Terminates arch begin limit) (small : begin < arch.modulus)
    (more : begin < limit) (enough : limit ≤ begin + (fuel + 1) * pageSize) :
    begin + pageSize < arch.modulus ∧ Terminates arch (begin + pageSize) limit ∧
      limit ≤ begin + pageSize + fuel * pageSize := by
  refine ⟨?_, ?_, ?_⟩
  · cases arch <;>
      simp only [Terminates, Arch.modulus, Arch.wordBytes, pageSize] at terminates small ⊢ <;> omega
  · simpa [Terminates] using terminates
  · rw [Nat.add_mul] at enough
    omega

/-- A loop whose counter gets past the limit makes one round per page. -/
theorem loop_eq_unrolled {loop : Nat → Nat → σ → ρ} {unrolled : List Nat → σ → ρ}
    {round : σ → Nat → (σ → ρ) → ρ} (done : ∀ fuel page, ¬ page < limit → loop fuel page = unrolled [])
    (more : ∀ fuel page state, page < limit →
      loop (fuel + 1) page state = round state page (loop fuel (arch.add page pageSize)))
    (unroll : ∀ page rest state, unrolled (page :: rest) state = round state page (unrolled rest))
    (terminates : Terminates arch begin limit) (small : begin < arch.modulus)
    (enough : limit ≤ begin + fuel * pageSize) : loop fuel begin = unrolled (visitedPages begin limit) := by
  induction fuel generalizing begin with
  | zero =>
    have ended : ¬ begin < limit := by omega
    rw [done _ _ ended, visitedPages_done (Nat.le_of_not_lt ended)]
  | succ fuel ih =>
    by_cases inside : begin < limit
    · obtain ⟨next, later, fuelLeft⟩ := terminates.next small inside enough
      funext state
      rw [more _ _ _ inside, visitedPages_cons inside, unroll, Arch.add_of_lt next, ih later next fuelLeft]
    · rw [done _ _ inside, visitedPages_done (Nat.le_of_not_lt inside)]

theorem forPages_eq_run (terminates : Terminates arch begin limit) (small : begin < arch.modulus)
    (enough : limit ≤ begin + fuel * pageSize) (state : σ) :
    forPages arch body limit fuel begin state = run body state (visitedPages begin limit) := by
  refine congrFun (@loop_eq_unrolled _ _ _ _ _ _ (forPages arch body limit) (fun pages state => run body state pages)
    (fun state page rest => (body state page).bind rest) ?_ ?_ (fun _ _ _ => rfl) terminates small enough) state
  · intro fuel page ended
    funext state
    cases fuel <;> rw [forPages, if_neg ended, run]
  · intro fuel page state inside
    rw [forPages, if_pos inside]

theorem forPages_stuck (stuck : ¬ Terminates arch begin limit) (small : begin < arch.modulus)
    (state : σ) : forPages arch body limit fuel begin state = none := by
  have more : begin < limit := by
    cases arch <;>
      simp only [Terminates, Arch.modulus, Arch.wordBytes, pageSize] at stuck small <;> omega
  induction fuel generalizing begin state with
  | zero => rw [forPages, if_pos more]
  | succ fuel ih =>
    have same : arch.add begin pageSize % pageSize = begin % pageSize := by
      cases arch <;> simp only [Arch.add, Machine.wordAdd, Arch.modulus, Arch.wordBytes, pageSize] <;> omega
    have later : ¬ Terminates arch (arch.add begin pageSize) limit := by
      simpa [Terminates, same] using stuck
    have next : arch.add begin pageSize < arch.modulus := Nat.mod_lt _ (Nat.zero_lt_of_lt small)
    rw [forPages, if_pos more]
    cases result : body state begin with
    | none => rfl
    | some after =>
      refine ih later next after ?_
      cases arch <;>
        simp only [Terminates, Arch.modulus, Arch.wordBytes, pageSize] at later next ⊢ <;> omega

theorem Terminates.enough (terminates : Terminates arch begin limit) :
    limit ≤ begin + arch.modulus * pageSize := by
  simp only [Terminates, pageSize] at terminates ⊢
  omega

/-- The loop over a range, as a run over the pages it comes to. -/
theorem forPages_eq (small : begin < arch.modulus) {state : σ} :
    forPages arch body limit arch.modulus begin state =
      if Terminates arch begin limit then run body state (visitedPages begin limit) else none := by
  split
  case isTrue terminates => exact forPages_eq_run terminates small terminates.enough state
  case isFalse stuck => exact forPages_stuck stuck small state

end

end FlapjackOS.Paging
