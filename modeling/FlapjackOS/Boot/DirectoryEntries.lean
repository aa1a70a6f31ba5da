import FlapjackOS.Boot.AddressSpace

/-! Which page directory entries `enumerate_page_directory_entries` comes to. -/

namespace FlapjackOS.Boot

open Paging

variable {arch : Arch} {entry : Nat → Option (Nat × Nat)} {start length : Nat}

/-- A function to call for each entry, which notes the entry. -/
def noteEntry (noted : List (Nat × Nat)) (pde : Nat × Nat) : Option (List (Nat × Nat)) := some (noted ++ [pde])

/-- The entries for which the function is called, in this order. -/
def enumeratedEntries (words : Words arch) (cr3 linearAddress length : Nat) :
    Option (List (Nat × Nat)) :=
  enumeratePageDirectoryEntries arch (fun _ => getPageDirectoryEntry words cr3) noteEntry linearAddress length []

/-- Each entry that governs a byte of the range is called for once, in the order of the bytes, and
no other entry is. -/
structure ExactlyOnce (entry : Nat → Option (Nat × Nat)) (start length : Nat) (called : List (Nat × Nat)) : Prop where
  once : called.Nodup
  governing : ∀ pde, pde ∈ called ↔ ∃ byte, start ≤ byte ∧ byte < start + length ∧ entry byte = some pde
  ascending : ∃ bytes : List Nat, bytes.Pairwise (· < ·) ∧
    (∀ byte ∈ bytes, start ≤ byte ∧ byte < start + length) ∧ bytes.map entry = called.map some

/-- The rounds of the loop. -/
def rounds (arch : Arch) (length : Nat) : Nat := (length + (directoryStep arch - 1)) / directoryStep arch

/-- The range begins no further into its first entry's bytes than it ends in its last entry's, or
it is empty. -/
def Covers (arch : Arch) (start length : Nat) : Prop :=
  length = 0 ∨ start % directoryStep arch + (length - 1) % directoryStep arch < directoryStep arch

/-- Every round comes to a page directory, and no two of them to one entry of a directory that is
used twice; and the last entry, if there is one, is among those that the rounds come to. -/
structure Enumerable (arch : Arch) (entry : Nat → Option (Nat × Nat)) (start length : Nat) : Prop where
  present : ∀ k, k < rounds arch length → (entry (start + k * directoryStep arch)).isSome
  distinct : ∀ i, i < rounds arch length → ∀ j, j < rounds arch length →
    entry (start + i * directoryStep arch) = entry (start + j * directoryStep arch) → i = j
  last : Covers arch start length ∨ ∀ pde, entry (start + length - 1) = some pde →
    ∃ k, k < rounds arch length ∧ entry (start + k * directoryStep arch) = some pde

/-- The entry of an address depends on the stretch of `STEP` bytes that the address is in. -/
theorem getPageDirectoryEntry_congr (words : Words arch) (cr3 : Nat)
    (same : address / directoryStep arch = other / directoryStep arch) :
    getPageDirectoryEntry words cr3 address = getPageDirectoryEntry words cr3 other := by
  have path : directoryPath arch address = directoryPath arch other ∧
      directoryIndex arch address = directoryIndex arch other := by
    cases arch with
    | i386 =>
      refine ⟨rfl, ?_⟩
      simp only [directoryIndex, I386.getIndexOfPml2EntryByAddress, Nat.shiftRight_eq_div_pow]
      exact same
    | x86_64 =>
      have shift (n k : Nat) : n / 2 ^ (21 + k) = n / 0x200000 / 2 ^ k := by
        rw [Nat.pow_add, Nat.div_div_eq_div_mul]
      have pml4 : address / 2 ^ 39 = other / 2 ^ 39 := by
        rw [shift address 18, shift other 18]
        exact congrArg (· / 2 ^ 18) same
      have pml3 : address / 2 ^ 30 = other / 2 ^ 30 := by
        rw [shift address 9, shift other 9]
        exact congrArg (· / 2 ^ 9) same
      have pml2 : address / 2 ^ 21 = other / 2 ^ 21 := same
      simp only [directoryPath, directoryIndex, X86_64.getIndexOfPml4EntryByAddress,
        X86_64.getIndexOfPml3EntryByAddress, X86_64.getIndexOfPml2EntryByAddress,
        Nat.shiftRight_eq_div_pow, pml4, pml3, pml2, and_self]
  rw [getPageDirectoryEntry, getPageDirectoryEntry, path.1, path.2]

theorem lt_of_round (arch : Arch) (inside : k < rounds arch length) : k * directoryStep arch < length := by
  cases arch <;> simp only [rounds, directoryStep] at inside ⊢ <;> omega

theorem rounds_zero (arch : Arch) : rounds arch 0 = 0 := by
  cases arch <;> decide

theorem rounds_succ (arch : Arch) (positive : 0 < length) :
    rounds arch length = rounds arch (length - directoryStep arch) + 1 := by
  cases arch <;> simp only [rounds, directoryStep] <;> omega

/-- The entries that the rounds come to. -/
def roundEntries (arch : Arch) (entry : Nat → Option (Nat × Nat)) (start length : Nat) : List (Option (Nat × Nat)) :=
  (List.range (rounds arch length)).map fun k => entry (start + k * directoryStep arch)

theorem roundEntries_zero (arch : Arch) : roundEntries arch entry start 0 = [] := by
  rw [roundEntries, rounds_zero]
  rfl

theorem roundEntries_succ (arch : Arch) (positive : 0 < length) : roundEntries arch entry start length =
    entry start :: roundEntries arch entry (start + directoryStep arch) (length - directoryStep arch) := by
  rw [roundEntries, roundEntries, rounds_succ arch positive, List.range_succ_eq_map, List.map_cons, List.map_map,
    Nat.zero_mul, Nat.add_zero]
  refine congrArg (entry start :: ·) (List.map_congr_left fun k _ => congrArg entry ?_)
  rw [Nat.succ_mul]
  omega

theorem map_some_iff {noted called : List (Nat × Nat)} :
    some noted = some called ↔ called.map some = noted.map some := by
  rw [Option.some.injEq, eq_comm]
  exact (List.map_inj_right fun _ _ => Option.some.inj).symm

/-- The loop returns if it finds an entry in each round, by induction on the rounds that are left. -/
theorem enumerateEntries_eq_some_iff {noted called : List (Nat × Nat)} (fits : start + length ≤ arch.modulus)
    (enough : rounds arch length ≤ fuel) :
    enumerateEntries arch (fun _ => entry) noteEntry fuel start length noted = some called ↔
      called.map some = noted.map some ++ roundEntries arch entry start length := by
  induction fuel generalizing start length noted with
  | zero =>
    obtain rfl : length = 0 := by
      by_contra positive
      rw [rounds_succ arch (Nat.pos_of_ne_zero positive)] at enough
      omega
    rw [enumerateEntries_done, roundEntries_zero, List.append_nil, map_some_iff]
  | succ fuel ih =>
    rcases Nat.eq_zero_or_pos length with rfl | positive
    · rw [enumerateEntries_done, roundEntries_zero, List.append_nil, map_some_iff]
    · have count := rounds_succ arch positive
      rw [enumerateEntries, if_pos positive, roundEntries_succ arch positive]
      cases here : entry start with
      | none =>
        refine iff_of_false (by rintro ⟨⟩) fun all => ?_
        have member : none ∈ called.map some := by simp [all]
        simp at member
      | some pde =>
        rw [← List.singleton_append, ← List.append_assoc,
          show noted.map some ++ [some pde] = (noted ++ [pde]).map some by simp]
        simp only [noteEntry, Option.bind_eq_bind, Option.bind_some]
        by_cases more : directoryStep arch < length
        · rw [Arch.add_of_lt (by omega)]
          exact ih (by omega) (by omega)
        · rw [show length - directoryStep arch = 0 by omega, enumerateEntries_done, roundEntries_zero,
            List.append_nil, map_some_iff]

/-- The entry of every byte is the entry of a stretch that a round comes to. -/
theorem round_of_byte (enumerable : Enumerable arch entry start length)
    (congr : ∀ address other, address / directoryStep arch = other / directoryStep arch →
      entry address = entry other) (low : start ≤ byte) (high : byte < start + length)
    (governs : entry byte = some pde) :
    ∃ k, k < rounds arch length ∧ entry (start + k * directoryStep arch) = some pde := by
  by_cases reached : byte / directoryStep arch - start / directoryStep arch < rounds arch length
  · refine ⟨_, reached, (congr _ _ ?_).trans governs⟩
    cases arch <;> simp only [directoryStep] <;> omega
  · -- the range is not covered, and the byte is in its last stretch
    have missed : ¬ Covers arch start length ∧
        byte / directoryStep arch = (start + length - 1) / directoryStep arch := by
      cases arch <;> simp only [rounds, Covers, directoryStep] at reached ⊢ <;> omega
    exact enumerable.last.resolve_left missed.1 pde ((congr _ _ missed.2).symm.trans governs)

section
variable {called : List (Nat × Nat)} (all : called.map some = roundEntries arch entry start length)
include all

theorem mem_called_iff : pde ∈ called ↔
    ∃ k, k < rounds arch length ∧ entry (start + k * directoryStep arch) = some pde := by
  rw [← List.mem_map_of_injective (Option.some_injective _), all, roundEntries]
  simp

theorem nodup_called_iff : called.Nodup ↔ ∀ i, i < rounds arch length → ∀ j, j < rounds arch length →
    entry (start + i * directoryStep arch) = entry (start + j * directoryStep arch) → i = j := by
  rw [← List.nodup_map_iff (Option.some_injective _), all, roundEntries,
    List.nodup_map_iff_inj_on List.nodup_range]
  simp only [List.mem_range]

theorem enumerable_of_exactlyOnce (exactly : ExactlyOnce entry start length called) :
    Enumerable arch entry start length := by
  refine ⟨fun k inside => ?_, (nodup_called_iff all).mp exactly.once, ?_⟩
  · have member : entry (start + k * directoryStep arch) ∈ called.map some :=
      all ▸ List.mem_map.mpr ⟨k, List.mem_range.mpr inside, rfl⟩
    obtain ⟨pde, _, same⟩ := List.mem_map.mp member
    rw [← same]
    rfl
  · by_cases positive : 0 < length
    · refine .inr fun pde governs => (mem_called_iff all).mp ?_
      exact (exactly.governing pde).mpr ⟨_, by omega, by omega, governs⟩
    · exact .inl (.inl (by omega))

theorem exactlyOnce_of_enumerable
    (congr : ∀ address other, address / directoryStep arch = other / directoryStep arch → entry address = entry other)
    (enumerable : Enumerable arch entry start length) : ExactlyOnce entry start length called := by
  refine ⟨(nodup_called_iff all).mpr enumerable.distinct, fun pde => ⟨?_, ?_⟩, ?_⟩
  · intro member
    obtain ⟨k, inside, governs⟩ := (mem_called_iff all).mp member
    have below := lt_of_round arch inside
    exact ⟨_, Nat.le_add_right _ _, by omega, governs⟩
  · rintro ⟨byte, low, high, governs⟩
    exact (mem_called_iff all).mpr (round_of_byte enumerable congr low high governs)
  · refine ⟨(List.range (rounds arch length)).map fun k => start + k * directoryStep arch, ?_, ?_, ?_⟩
    · have positive := directoryStep_pos arch
      refine List.Pairwise.map _ (fun i j less => ?_) List.pairwise_lt_range
      have further : i * directoryStep arch < j * directoryStep arch := Nat.mul_lt_mul_of_pos_right less positive
      omega
    · intro byte member
      obtain ⟨k, inside, rfl⟩ := List.mem_map.mp member
      have below := lt_of_round arch (List.mem_range.mp inside)
      exact ⟨Nat.le_add_right _ _, by omega⟩
    · rw [all, roundEntries, List.map_map]
      rfl

end

/-- The enumeration of a range is exact if and only if the range is enumerable. -/
theorem enumeration_exact_iff (arch : Arch) (words : Words arch) (cr3 start length : Nat)
    (small : length < intMax) (fits : start + length ≤ arch.modulus) :
    (∃ called, enumeratedEntries words cr3 start length = some called ∧
      ExactlyOnce (getPageDirectoryEntry words cr3) start length called) ↔
      Enumerable arch (getPageDirectoryEntry words cr3) start length := by
  have enough : rounds arch length ≤ length := by
    cases arch <;> simp only [rounds, directoryStep] <;> omega
  have run (called : List (Nat × Nat)) : enumeratedEntries words cr3 start length = some called ↔
      called.map some = roundEntries arch (getPageDirectoryEntry words cr3) start length := by
    rw [enumeratedEntries, enumeratePageDirectoryEntries, if_pos small]
    exact enumerateEntries_eq_some_iff fits enough
  simp only [run]
  constructor
  · rintro ⟨called, all, exactly⟩
    exact enumerable_of_exactlyOnce all exactly
  · intro enumerable
    obtain ⟨called, all⟩ : ∃ called : List (Nat × Nat),
        called.map some = roundEntries arch (getPageDirectoryEntry words cr3) start length := by
      refine ⟨(roundEntries arch (getPageDirectoryEntry words cr3) start length).map (·.getD (0, 0)), ?_⟩
      rw [List.map_map, roundEntries, List.map_map]
      refine List.map_congr_left fun k inside => ?_
      obtain ⟨pde, found⟩ := Option.isSome_iff_exists.mp (enumerable.present k (List.mem_range.mp inside))
      simp [found]
    exact ⟨called, all,
      exactlyOnce_of_enumerable all (fun _ _ => getPageDirectoryEntry_congr words cr3) enumerable⟩

theorem getPageDirectoryEntry_i386 (words : Words .i386)
    (root : convertPhysicalToLogicalAddress .i386 cr3 ≠ 0) (address : Nat) :
    getPageDirectoryEntry words cr3 address =
      some (convertPhysicalToLogicalAddress .i386 cr3, address / directoryStep .i386) := by
  simp only [getPageDirectoryEntry, directoryPath, resolve, root, if_false, Option.map_some, directoryIndex,
    I386.getIndexOfPml2EntryByAddress, Nat.shiftRight_eq_div_pow]
  rfl

/-- So it depends on the offsets of the range alone. -/
theorem enumerable_i386_iff (words : Words .i386)
    (root : convertPhysicalToLogicalAddress .i386 cr3 ≠ 0) (start length : Nat) :
    Enumerable .i386 (getPageDirectoryEntry words cr3) start length ↔ Covers .i386 start length := by
  constructor
  · rintro ⟨_, _, covers | last⟩
    · exact covers
    · obtain ⟨k, inside, same⟩ := last _ (getPageDirectoryEntry_i386 words root _)
      simp only [getPageDirectoryEntry_i386 words root, Option.some.injEq, Prod.mk.injEq, true_and] at same
      simp only [rounds, Covers, directoryStep] at inside same ⊢
      omega
  · intro covers
    refine ⟨fun k _ => ?_, fun i _ j _ same => ?_, .inl covers⟩
    · rw [getPageDirectoryEntry_i386 words root]
      rfl
    simp only [getPageDirectoryEntry_i386 words root, Option.some.injEq, Prod.mk.injEq, true_and] at same
    simp only [directoryStep] at same
    omega

/-- Paging structures in which nothing is set. -/
def emptyWords : Words .i386 := fun _ _ => 0

theorem enumeration_exact_sample :
    Enumerable .i386 (getPageDirectoryEntry emptyWords 0x1000) 0x3FF000 0x401000 ∧
    ∃ called, enumeratedEntries emptyWords 0x1000 0x3FF000 0x401000 = some called ∧
      ExactlyOnce (getPageDirectoryEntry emptyWords 0x1000) 0x3FF000 0x401000 called := by
  have root : convertPhysicalToLogicalAddress .i386 0x1000 ≠ 0 := by decide
  have enumerable := (enumerable_i386_iff emptyWords root 0x3FF000 0x401000).mpr (.inr (by decide))
  exact ⟨enumerable,
    (enumeration_exact_iff .i386 emptyWords 0x1000 0x3FF000 0x401000 (by decide) (by decide)).mpr enumerable⟩

/-- Two bytes on both sides of a boundary have an entry each, and the second one is missed. -/
theorem second_entry_missed :
    getPageDirectoryEntry emptyWords 0x1000 0x3FFFFF = some (0xC0001000, 0) ∧
      getPageDirectoryEntry emptyWords 0x1000 0x400000 = some (0xC0001000, 1) ∧
      enumeratedEntries emptyWords 0x1000 0x3FFFFF 2 = some [(0xC0001000, 0)] := by
  decide

end FlapjackOS.Boot
