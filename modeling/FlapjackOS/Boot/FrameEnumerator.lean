import FlapjackOS.Paging.MemoryMap
import Mathlib.Data.List.Nodup

/-! `MultibootMemoryMapPageFrameEnumerator`, which reads the memory map of the boot loader.
`none` stands for a failed assertion, a pointer that overflows or a walk that does not end. -/

namespace FlapjackOS.Boot

open Frames Machine Paging

section
variable (memory : Memory) (entry : Nat)

def entrySize : Nat := load memory entry 4

def baseAddrLow : Nat := load memory (entry + 4) 4

def lengthLow : Nat := load memory (entry + 12) 4

def entryType : Nat := load memory (entry + 20) 4

end

/-- `sizeof(multiboot_memory_map_t)`. -/
def sizeofEntry : Nat := 24

/-- `MULTIBOOT_MEMORY_AVAILABLE`. -/
def memoryAvailable : Nat := 1

/-- The fields of `multiboot_info_t` that are read. -/
structure MultibootInfo where
  flags : BitVec 32
  mmapLength : Nat
  mmapAddr : Nat

structure MultibootMemoryMapPageFrameEnumerator where
  entry : Nat
  limit : Nat
  currPageFrame : Nat
  remainingLengthOfEntry : Nat
  deriving DecidableEq, Repr

/-- The loop of `get_next_valid_entry`; the inner `none` is the null pointer. -/
def getNextValidEntry (arch : Arch) (memory : Memory) (limit : Nat) : Nat → Nat → Option (Option Nat)
  | fuel, entry =>
    if entry < limit ∧ 0 < entrySize memory entry then
      match fuel with
      | 0 => none
      | fuel + 1 =>
        let entry := arch.add (arch.add entry (entrySize memory entry)) 4
        if entryType memory entry = memoryAvailable then some (some entry)
        else getNextValidEntry arch memory limit fuel entry
    else some none

namespace MultibootMemoryMapPageFrameEnumerator

variable (arch : Arch) (memory : Memory) (enumerator : MultibootMemoryMapPageFrameEnumerator)

/-- The state once an entry has been chosen. -/
def atEntry (limit entry : Nat) : MultibootMemoryMapPageFrameEnumerator where
  entry := entry
  limit := limit
  currPageFrame := baseAddrLow memory entry
  remainingLengthOfEntry := lengthLow memory entry

/-- The limit counts entries, although `mmap_length` is a number of bytes. -/
def construct (info : MultibootInfo) : Option MultibootMemoryMapPageFrameEnumerator :=
  if info.flags &&& 2 = 0 then none
  else
    let entry := convertPhysicalToLogicalAddress arch info.mmapAddr
    let limit := entry + sizeofEntry * info.mmapLength
    if arch.modulus ≤ limit then none
    else if 0 < entrySize memory entry ∧ entryType memory entry = memoryAvailable then
      some (atEntry memory limit entry)
    else none

def nextValidEntry : Option (Option Nat) :=
  getNextValidEntry arch memory enumerator.limit arch.modulus enumerator.entry

def hasNext : Option Bool :=
  if 0 < enumerator.remainingLengthOfEntry then some true
  else (enumerator.nextValidEntry arch memory).map Option.isSome

def scanToNextValidEntry : Option MultibootMemoryMapPageFrameEnumerator := do
  let entry ← ← enumerator.nextValidEntry arch memory
  return atEntry memory enumerator.limit entry

/-- Return the current page frame and go on to the next one. -/
def takePageFrame : Nat × MultibootMemoryMapPageFrameEnumerator :=
  (enumerator.currPageFrame, { enumerator with
    remainingLengthOfEntry := arch.sub enumerator.remainingLengthOfEntry pageSize
    currPageFrame := arch.add enumerator.currPageFrame pageSize })

def getNext : Option (Nat × MultibootMemoryMapPageFrameEnumerator) := do
  if (← enumerator.hasNext arch memory) = false then none
  if enumerator.remainingLengthOfEntry < pageSize then
    let enumerator ← enumerator.scanToNextValidEntry arch memory
    return enumerator.takePageFrame arch
  else return enumerator.takePageFrame arch

/-- The addresses that up to `calls` calls of `get_next` return, each made while `has_next`
is true. -/
def enumerate : Nat → MultibootMemoryMapPageFrameEnumerator → List Nat
  | 0, _ => []
  | calls + 1, enumerator =>
    if enumerator.hasNext arch memory = some true then
      match enumerator.getNext arch memory with
      | some (pageFrame, next) => pageFrame :: enumerate calls next
      | none => []
    else []

end MultibootMemoryMapPageFrameEnumerator

open MultibootMemoryMapPageFrameEnumerator

section
variable (arch : Arch) (memory : Memory) (limit : Nat)

/-- The entry that the walk comes to next, if any. -/
def successor (entry : Nat) : Option Nat :=
  (getNextValidEntry arch memory limit arch.modulus entry).join

/-- Up to `count` entries that the walk comes to behind an entry. -/
def successors : Nat → Nat → List Nat
  | 0, _ => []
  | count + 1, entry =>
    match successor arch memory limit entry with
    | none => []
    | some next => next :: successors count next

/-- Addresses one page apart. -/
def pagesFrom (start count : Nat) : List Nat :=
  (List.range count).map fun k => (start + k * pageSize) % arch.modulus

/-- The addresses that are returned for an entry to which the walk comes. The first one is
returned without a look at the length. -/
def given (entry : Nat) : List Nat :=
  pagesFrom arch (baseAddrLow memory entry)
    (1 + arch.sub (lengthLow memory entry) pageSize / pageSize)

/-- The addresses that are returned for an entry and up to `count` entries behind it. -/
def listing (count entry : Nat) : List Nat :=
  pagesFrom arch (baseAddrLow memory entry) (lengthLow memory entry / pageSize) ++
    (successors arch memory limit count entry).flatMap (given arch memory)

end

namespace MultibootMemoryMapPageFrameEnumerator

variable {arch : Arch} {memory : Memory} {enumerator : MultibootMemoryMapPageFrameEnumerator}
  {limit entry : Nat}

theorem pagesFrom_succ (start count : Nat) :
    pagesFrom arch start (count + 1) =
      start % arch.modulus :: pagesFrom arch (arch.add start pageSize) count := by
  simp only [pagesFrom, List.range_succ_eq_map, List.map_cons, List.map_map, Nat.zero_mul, Nat.add_zero]
  refine congrArg _ (List.map_congr_left fun k _ => ?_)
  rw [Function.comp_apply, Arch.add, wordAdd, Nat.mod_add_mod]
  congr 1
  rw [Nat.succ_mul]
  omega

theorem hasNext_of_room (room : pageSize ≤ enumerator.remainingLengthOfEntry) :
    enumerator.hasNext arch memory = some true :=
  if_pos (Nat.lt_of_lt_of_le (by decide) room)

theorem getNext_of_room (room : pageSize ≤ enumerator.remainingLengthOfEntry) :
    enumerator.getNext arch memory = some (enumerator.takePageFrame arch) := by
  simp [getNext, hasNext_of_room room, Nat.not_lt.mpr room]

/-- While the entry has whole pages left, they are returned one by one. -/
theorem enumerate_pages (count calls : Nat) (small : enumerator.currPageFrame < arch.modulus)
    (bounded : enumerator.remainingLengthOfEntry < arch.modulus)
    (whole : enumerator.remainingLengthOfEntry / pageSize = count) :
    ∃ after : MultibootMemoryMapPageFrameEnumerator, after.entry = enumerator.entry ∧
      after.limit = enumerator.limit ∧ after.remainingLengthOfEntry < pageSize ∧
      enumerate arch memory (count + calls) enumerator =
        pagesFrom arch enumerator.currPageFrame count ++ enumerate arch memory calls after := by
  induction count generalizing enumerator with
  | zero =>
    refine ⟨enumerator, rfl, rfl, ?_, by simp [pagesFrom]⟩
    simp only [pageSize] at whole ⊢
    omega
  | succ count ih =>
    have room : pageSize ≤ enumerator.remainingLengthOfEntry := by
      simp only [pageSize] at whole ⊢
      omega
    have less : arch.sub enumerator.remainingLengthOfEntry pageSize =
        enumerator.remainingLengthOfEntry - pageSize := Arch.sub_of_le room bounded
    have next := @ih (enumerator.takePageFrame arch).2 (Nat.mod_lt _ (by omega))
      (by simp only [takePageFrame, less]; omega)
      (by simp only [takePageFrame, less]; simp only [pageSize] at whole ⊢; omega)
    obtain ⟨after, sameEntry, sameLimit, short, rest⟩ := next
    refine ⟨after, sameEntry, sameLimit, short, ?_⟩
    rw [Nat.succ_add, enumerate, if_pos (hasNext_of_room room), getNext_of_room room]
    simp only [takePageFrame] at rest ⊢
    rw [rest, pagesFrom_succ, Nat.mod_eq_of_lt small, List.cons_append]

section
variable (short : enumerator.remainingLengthOfEntry < pageSize)
include short

theorem getNext_of_successor
    (found : successor arch memory enumerator.limit enumerator.entry = some entry) :
    enumerator.hasNext arch memory = some true ∧
      enumerator.getNext arch memory = some ((atEntry memory enumerator.limit entry).takePageFrame arch) := by
  have valid : enumerator.nextValidEntry arch memory = some (some entry) := Option.join_eq_some_iff.mp found
  have more : enumerator.hasNext arch memory = some true := by simp [hasNext, valid]
  exact ⟨more, by simp [getNext, more, short, scanToNextValidEntry, valid]⟩

theorem getNext_exhausted
    (exhausted : successor arch memory enumerator.limit enumerator.entry = none) :
    enumerator.getNext arch memory = none := by
  have joined : (enumerator.nextValidEntry arch memory).join = none := exhausted
  rcases Option.join_eq_none_iff.mp joined with found | found
  all_goals
    by_cases positive : 0 < enumerator.remainingLengthOfEntry
    · simp [hasNext, getNext, scanToNextValidEntry, positive, short, found]
    · simp [getNext, hasNext, positive, found]

/-- When less than a page is left, the next address comes from the next entry. -/
theorem enumerate_scan (calls : Nat) :
    enumerate arch memory (calls + 1) enumerator =
      match successor arch memory enumerator.limit enumerator.entry with
      | none => []
      | some next => baseAddrLow memory next :: enumerate arch memory calls
          ((atEntry memory enumerator.limit next).takePageFrame arch).2 := by
  cases following : successor arch memory enumerator.limit enumerator.entry with
  | none => rw [enumerate, getNext_exhausted short following, ite_self]
  | some next =>
    obtain ⟨more, returned⟩ := getNext_of_successor short following
    rw [enumerate, if_pos more, returned]
    rfl

end

theorem load_word_lt (address : Nat) : load memory address 4 < arch.modulus :=
  Nat.lt_of_lt_of_le load_lt arch.modulus_large

/-- The entries behind the current one give their addresses in order. -/
theorem enumerate_successors (count calls : Nat) (short : enumerator.remainingLengthOfEntry < pageSize) :
    ∃ after : MultibootMemoryMapPageFrameEnumerator, after.limit = enumerator.limit ∧
      after.remainingLengthOfEntry < pageSize ∧
      ((successors arch memory enumerator.limit count enumerator.entry).length = count ∨
        successor arch memory after.limit after.entry = none) ∧
      enumerate arch memory (((successors arch memory enumerator.limit count enumerator.entry).flatMap
          (given arch memory)).length + calls) enumerator =
        (successors arch memory enumerator.limit count enumerator.entry).flatMap (given arch memory) ++
          enumerate arch memory calls after := by
  induction count generalizing enumerator with
  | zero => exact ⟨enumerator, rfl, short, .inl rfl, by simp [successors]⟩
  | succ count ih =>
    rw [successors]
    cases found : successor arch memory enumerator.limit enumerator.entry with
    | none => exact ⟨enumerator, rfl, short, .inr found, by simp⟩
    | some next =>
      -- one address on arrival, then the whole pages that the length seems to leave
      have base : baseAddrLow memory next < arch.modulus := load_word_lt _
      obtain ⟨middle, sameEntry, sameLimit, shortMiddle, pages⟩ :=
        @enumerate_pages arch memory ((atEntry memory enumerator.limit next).takePageFrame arch).2
          (arch.sub (lengthLow memory next) pageSize / pageSize)
          (((successors arch memory enumerator.limit count next).flatMap (given arch memory)).length + calls)
          (Nat.mod_lt _ (by omega)) (Nat.mod_lt _ (by omega)) rfl
      obtain ⟨after, limit, shortAfter, ended, rest⟩ := ih shortMiddle
      have own : middle.entry = next ∧ middle.limit = enumerator.limit := ⟨sameEntry, sameLimit⟩
      rw [own.1, own.2] at rest ended
      refine ⟨after, limit.trans own.2, shortAfter, ?_, ?_⟩
      · rcases ended with full | none
        · exact .inl (by simp [full])
        · exact .inr none
      · have first : given arch memory next = baseAddrLow memory next ::
            pagesFrom arch (arch.add (baseAddrLow memory next) pageSize)
              (arch.sub (lengthLow memory next) pageSize / pageSize) := by
          rw [given, Nat.add_comm 1, pagesFrom_succ, Nat.mod_eq_of_lt base]
        have total : (given arch memory next ++
            (successors arch memory enumerator.limit count next).flatMap (given arch memory)).length + calls =
            arch.sub (lengthLow memory next) pageSize / pageSize +
              (((successors arch memory enumerator.limit count next).flatMap (given arch memory)).length +
                calls) + 1 := by
          simp only [List.length_append, given, pagesFrom, List.length_map, List.length_range]
          omega
        rw [List.flatMap_cons, total, enumerate_scan short, found, first]
        dsimp only
        rw [pages, rest]
        simp [takePageFrame, atEntry]

theorem enumerate_listing (count calls : Nat) :
    ∃ after : MultibootMemoryMapPageFrameEnumerator, after.remainingLengthOfEntry < pageSize ∧
      ((successors arch memory limit count entry).length = count ∨
        successor arch memory after.limit after.entry = none) ∧
      enumerate arch memory ((listing arch memory limit count entry).length + calls)
          (atEntry memory limit entry) =
        listing arch memory limit count entry ++ enumerate arch memory calls after := by
  obtain ⟨middle, sameEntry, sameLimit, short, pages⟩ :=
    @enumerate_pages arch memory (atEntry memory limit entry) (lengthLow memory entry / pageSize)
      (((successors arch memory limit count entry).flatMap (given arch memory)).length + calls)
      (load_word_lt _) (load_word_lt _) rfl
  have own : middle.entry = entry ∧ middle.limit = limit := ⟨sameEntry, sameLimit⟩
  obtain ⟨after, _, shortAfter, ended, rest⟩ := @enumerate_successors arch memory middle count calls short
  rw [own.1, own.2] at rest ended
  refine ⟨after, shortAfter, ended, ?_⟩
  have length : (listing arch memory limit count entry).length = lengthLow memory entry / pageSize +
      ((successors arch memory limit count entry).flatMap (given arch memory)).length := by
    simp [listing, pagesFrom]
  rw [length, Nat.add_assoc, pages, rest, listing, List.append_assoc]
  rfl

theorem enumerate_prefix (calls more : Nat) :
    enumerate arch memory calls enumerator <+: enumerate arch memory (calls + more) enumerator := by
  induction calls generalizing enumerator with
  | zero => exact List.nil_prefix
  | succ calls ih =>
    rw [Nat.succ_add, enumerate, enumerate]
    split
    · split
      · exact List.cons_prefix_cons.mpr ⟨rfl, ih⟩
      · exact List.prefix_rfl
    · exact List.prefix_rfl

/-- What holds of all that is listed holds of all that is returned. -/
theorem forall_enumerate_iff {Good : List Nat → Prop}
    (shrinks : ∀ {xs ys : List Nat}, xs <+: ys → Good ys → Good xs) (offset : Nat) :
    (∀ calls, Good (enumerate arch memory calls (atEntry memory limit entry))) ↔
      ∀ count, Good (listing arch memory limit (offset + count) entry) := by
  have returnedBy (count : Nat) :
      enumerate arch memory (listing arch memory limit count entry).length (atEntry memory limit entry) =
        listing arch memory limit count entry := by
    obtain ⟨after, _, _, listed⟩ := @enumerate_listing arch memory limit entry count 0
    rwa [Nat.add_zero, enumerate, List.append_nil] at listed
  constructor
  · intro returned count
    exact returnedBy (offset + count) ▸ returned _
  · intro listed calls
    obtain ⟨after, short, ended, pages⟩ := @enumerate_listing arch memory limit entry (offset + calls) calls
    refine shrinks ?_ (listed calls)
    rcases ended with full | none
    · -- every entry has given an address
      have many : calls ≤ (listing arch memory limit (offset + calls) entry).length := by
        have each : (successors arch memory limit (offset + calls) entry).length ≤
            ((successors arch memory limit (offset + calls) entry).flatMap (given arch memory)).length := by
          rw [List.length_flatMap]
          refine List.length_le_sum_of_one_le _ ?_ |>.trans' (by simp)
          simp [given, pagesFrom]
        rw [listing, List.length_append]
        omega
      obtain ⟨more, enough⟩ := Nat.exists_eq_add_of_le many
      rw [← returnedBy, enough]
      exact enumerate_prefix calls more
    · have ends : enumerate arch memory calls after = [] := by
        cases calls with
        | zero => rfl
        | succ calls => rw [enumerate_scan short, none]
      rw [ends, List.append_nil] at pages
      rw [← pages, Nat.add_comm]
      exact enumerate_prefix calls _

end MultibootMemoryMapPageFrameEnumerator

end FlapjackOS.Boot
