import FlapjackOS.Machine.Lists
import FlapjackOS.Malloc.Safety

namespace FlapjackOS.Malloc

open Machine Tiling Runs

section
variable (arch : Arch) (memory : Memory) (headers : List Nat) (bytes : Nat)

/-- `block` is a free block of the list with room for `bytes` bytes. -/
def Fitting (block : Nat) : Prop :=
  block ∈ headers ∧ inuse arch memory block = false ∧ bytes ≤ size arch memory block

/-- `best` is a smallest block that fits, and the first of these in address order. -/
structure BestFit (best : Nat) : Prop where
  fitting : Fitting arch memory headers bytes best
  smallest : ∀ block, Fitting arch memory headers bytes block → size arch memory best ≤ size arch memory block
  first : ∀ block, Fitting arch memory headers bytes block →
    size arch memory block = size arch memory best → best ≤ block

/-- The request is refused exactly if nothing fits, and then nothing has been written.
Otherwise the best fit is handed out. -/
structure FitServed (after : Memory) (ptr : Nat) : Prop where
  refused_iff : ptr = 0 ↔ ∀ block, ¬ Fitting arch memory headers bytes block
  untouched : ptr = 0 → after = memory
  taken : ptr ≠ 0 → ∃ best, BestFit arch memory headers bytes best ∧
    ptr = best + sizeofBlock arch ∧ inuse arch after best = true

end

section
variable {arch : Arch} {memory : Memory} {zone limit bytes : Nat} {blocks : List Block}

/-- The blocks that the search accepts are those with room for the request itself. -/
theorem Layout.fits_iff (held : Layout arch memory zone limit blocks) (fits : bytes < arch.modulus) :
    block ∈ (addresses (sizeofBlock arch) (firstBlock arch zone) blocks).filter
        (Fits arch memory (roundUpBlockSize arch bytes) (fun _ => true)) ↔
      Fitting arch memory (addresses (sizeofBlock arch) (firstBlock arch zone) blocks)
        ((bytes + 3) / 4 * 4) block := by
  rw [List.mem_filter, Fitting]
  refine and_congr_right fun member => ?_
  obtain ⟨front, own, rest, shape, place⟩ := mem_addresses_focus member
  subst shape
  have small : size arch memory block + 4 < arch.modulus := by
    rw [place, held.suffix.size]
    exact held.block_small
  have rounding : roundUpBlockSize arch bytes ≤ size arch memory block ↔
      (bytes + 3) / 4 * 4 ≤ size arch memory block := by
    have aligned := arch.modulus_aligned
    obtain ⟨multiple, ⟨above, below, _⟩ | ⟨wrapped, large⟩⟩ := roundUpBlockSize_cases fits
    · omega
    · omega
  rw [← rounding, decide_eq_true_iff, Fits]
  simp only [true_and]
  exact and_comm

theorem Layout.findBestFit_spec (held : Layout arch memory zone limit blocks) (fits : bytes < arch.modulus)
    (search : findBestFit arch memory zone (roundUpBlockSize arch bytes) = some best) :
    (best = 0 ∧ ∀ block, ¬ Fitting arch memory (addresses (sizeofBlock arch) (firstBlock arch zone) blocks)
        ((bytes + 3) / 4 * 4) block) ∨
      BestFit arch memory (addresses (sizeofBlock arch) (firstBlock arch zone) blocks)
        ((bytes + 3) / 4 * 4) best := by
  rw [findBestFit, held.search_argmin, Option.some.injEq] at search
  cases least : ((addresses (sizeofBlock arch) (firstBlock arch zone) blocks).filter
    (Fits arch memory (roundUpBlockSize arch bytes) (fun _ => true))).argmin (size arch memory) with
  | none =>
    rw [least, Option.getD_none] at search
    refine .inl ⟨search.symm, fun block fitting => ?_⟩
    have member := (held.fits_iff fits).mpr fitting
    rw [List.argmin_eq_none.mp least] at member
    exact List.not_mem_nil member
  | some found =>
    rw [least, Option.getD_some] at search
    subst search
    refine .inr ⟨(held.fits_iff fits).mp (List.argmin_mem least), fun block fitting => ?_,
      fun block fitting same => ?_⟩
    · exact List.le_of_mem_argmin ((held.fits_iff fits).mpr fitting) least
    · have sorted := @addresses_pairwise (sizeofBlock arch) (firstBlock arch zone) (sizeofBlock_pos arch) blocks
      exact Lists.argmin_le_of_pairwise (sorted.filter _) least ((held.fits_iff fits).mpr fitting) same.le

end

section
variable {arch : Arch} {memory : Memory} {zone limit bytes : Nat} {blocks : List Block}

theorem Represents.malloc_fit (held : Represents arch memory zone limit blocks) (fits : bytes < arch.modulus) :
    ∃ after ptr, Malloc.malloc arch memory zone bytes = some (after, ptr) ∧
      FitServed arch memory (addresses (sizeofBlock arch) (firstBlock arch zone) blocks)
        ((bytes + 3) / 4 * 4) after ptr := by
  have wide := sizeofBlock_pos arch
  obtain ⟨best, search, ⟨null, returned⟩ | ⟨after, returned, some, granted, _⟩⟩ := held.malloc fits
  · refine ⟨memory, 0, returned, ?_⟩
    rcases held.findBestFit_spec fits search with ⟨_, nothing⟩ | fit
    · exact ⟨iff_of_true rfl nothing, fun _ => rfl, fun other => (other rfl).elim⟩
    · exact (held.header_ne_zero best fit.fitting.1 null).elim
  · refine ⟨after, best + sizeofBlock arch, returned, ?_⟩
    rcases held.findBestFit_spec fits search with ⟨null, _⟩ | fit
    · exact (some null).elim
    · refine ⟨iff_of_false (by omega) fun nothing => nothing best fit.fitting, by omega,
        fun _ => ⟨best, fit, rfl, ?_⟩⟩
      obtain ⟨new, extent, _, served⟩ := granted.served
      have used := (served.rebound (best + sizeofBlock arch) extent).mpr (.inl rfl)
      have flag := served.represents.payload_inuse used
      rwa [Nat.add_sub_cancel] at flag

end

section
variable {arch : Arch} {memory created : Memory} {vtable start size zone : Nat} {calls : List Call}

/-- In every zone that a client can reach, `malloc` takes the best fit or fails because there
is none, and a request that fails changes nothing. -/
theorem requests_served_or_untouched
    (success : create arch memory vtable start size = some (created, zone))
    (room : sizeofZone arch + sizeofBlock arch ≤ size) (fits : (start + 3) / 4 * 4 + size < arch.modulus)
    (legal : Legal (step arch zone) (Proper arch zone) (Heap.fresh created) calls) :
    ∃ final headers, run (step arch zone) (Heap.fresh created) calls = some final ∧
      visited arch final.memory zone = some headers ∧
      (∀ bytes, bytes < arch.modulus → ∃ after ptr,
        malloc arch final.memory zone bytes = some (after, ptr) ∧
        FitServed arch final.memory headers ((bytes + 3) / 4 * 4) after ptr) ∧
      ∀ ptr bytes, ptr = 0 ∨ (final.live ptr).isSome → bytes < arch.modulus → bytes ≠ 0 →
        ∃ after result, realloc arch final.memory zone ptr bytes = some (after, result) ∧
          (result = 0 → after = final.memory) := by
  obtain ⟨final, finished, blocks, tracks⟩ := (Setup.of_create success room fits).run_tracks (fun _ _ _ _ => id) legal
  refine ⟨final, _, finished, tracks.represents.wellFormed.forward, fun bytes small => ?_,
    fun ptr bytes source small requested => ?_⟩
  · exact tracks.represents.malloc_fit small
  · rcases source with null | live
    · obtain ⟨after, result, returned, served⟩ := tracks.represents.malloc_fit small
      refine ⟨after, result, ?_, served.untouched⟩
      rw [null, realloc, if_pos rfl, returned]
    · obtain ⟨extent, used⟩ := tracks.allocated live
      obtain ⟨after, result, returned, outcome⟩ :=
        tracks.represents.realloc used (Nat.pos_of_ne_zero requested) small
      refine ⟨after, result, returned, fun null => ?_⟩
      cases outcome with
      | inPlace _ resized _ => exact absurd null resized.positive.ne'
      | relocated _ _ _ resized _ => exact absurd null resized.positive.ne'
      | merged _ _ _ _ _ resized _ => exact absurd null resized.positive.ne'
      | refused => rfl

theorem requests_served_or_untouched_sample :
    ∃ final headers, run (step .i386 4096) (Heap.fresh sampleZone)
        [.malloc 10, .malloc 8, .malloc 40, .free 4120, .realloc 4148 100, .memalign 20 64] = some final ∧
      visited .i386 final.memory 4096 = some headers ∧
      (∀ bytes, bytes < Arch.i386.modulus → ∃ after ptr,
        malloc .i386 final.memory 4096 bytes = some (after, ptr) ∧
        FitServed .i386 final.memory headers ((bytes + 3) / 4 * 4) after ptr) ∧
      ∀ ptr bytes, ptr = 0 ∨ (final.live ptr).isSome → bytes < Arch.i386.modulus → bytes ≠ 0 →
        ∃ after result, realloc .i386 final.memory 4096 ptr bytes = some (after, result) ∧
          (result = 0 → after = final.memory) :=
  requests_served_or_untouched sampleZone_setup.success (by decide) (by decide) (by decide +kernel)

end

end FlapjackOS.Malloc
