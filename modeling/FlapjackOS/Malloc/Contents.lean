import FlapjackOS.Malloc.Safety

/-! What `realloc` does to the contents of an allocation. -/

namespace FlapjackOS.Malloc

open Machine Tiling CString Runs

variable {arch : Arch} {memory changed created : Memory}
  {zone limit ptr q bytes newSize i vtable start : Nat} {blocks : List Block} {calls : List Call}

/-- The byte that ends up at offset `i` of the combined block when the block at
`ptr` merges with a free block whose payload is at `q`. -/
def shiftedByte (memory : Memory) (ptr q i : Nat) : UInt8 :=
  if i < ptr - q then memory (q + i) else memory (q + (i - (ptr - q)))

/-- The state before a call of `realloc` in which it keeps the contents: the
block grows or shrinks in place, the request is refused, or the bytes found at
the destination are the right ones already. -/
def KeepsContents (arch : Arch) (memory : Memory) (zone ptr newSize : Nat) : Prop :=
  HasRoom arch memory (roundUpBlockSize arch newSize) (ptr - sizeofBlock arch) ∨
  (∃ best, findBestFit arch memory zone (roundUpBlockSize arch newSize) = some best ∧ best ≠ 0 ∧
    ∀ i, i < extent arch memory ptr → i < newSize →
      memory (best + sizeofBlock arch + i) = memory (ptr + i)) ∨
  (findBestFit arch memory zone (roundUpBlockSize arch newSize) = some 0 ∧
    (JoinsPreceding arch memory (roundUpBlockSize arch newSize) (ptr - sizeofBlock arch) →
      ∀ i, i < extent arch memory ptr → i < newSize →
        shiftedByte memory ptr (prev arch memory (ptr - sizeofBlock arch) + sizeofBlock arch) i =
          memory (ptr + i)))

theorem moved_eq_shiftedByte (below : q < ptr) (inside : i < bytes) :
    moved memory ptr q bytes (q + i) = shiftedByte memory ptr q i := by
  unfold moved shiftedByte
  by_cases early : i < ptr - q
  · rw [if_neg (by omega), if_pos early]
  · rw [if_pos (by omega), if_neg early]
    congr 1
    omega

/-- Each outcome of `realloc` decides for itself whether the contents survive. -/
theorem Reallocated.contents
    (outcome : Reallocated arch memory zone limit blocks ptr (extent arch memory ptr)
      (roundUpBlockSize arch newSize) changed result)
    (fits : newSize < arch.modulus) :
    (result ≠ 0 → ∀ i, i < extent arch memory ptr → i < newSize →
      changed (result + i) = memory (ptr + i)) ↔ KeepsContents arch memory zone ptr newSize := by
  cases outcome with
  | inPlace room resized same =>
    have covered := resized.request fits
    constructor
    · intro _
      exact .inl room
    · intro _ _ i old new
      exact same i old (by omega)
  | @relocated best _ crowded found present resized same =>
    have covered := resized.request fits
    have positive := resized.positive
    constructor
    · intro kept
      refine .inr (.inl ⟨best, found, present, fun i old new => ?_⟩)
      rw [← same i (by omega)]
      exact kept (by omega) i old new
    · rintro (room | ⟨other, again, _, equal⟩ | ⟨nothing, _⟩) _ i old new
      · exact (crowded room).elim
      · rw [found, Option.some.injEq] at again
        subst again
        rw [same i (by omega)]
        exact equal i old new
      · rw [found, Option.some.injEq] at nothing
        exact (present nothing).elim
  | merged crowded nothing joins payload below resized same =>
    have covered := resized.request fits
    have positive := resized.positive
    have final (i : Nat) (old : i < extent arch memory ptr) (new : i < newSize) :
        changed (result + i) = shiftedByte memory ptr result i := by
      rw [same i (by omega), moved_eq_shiftedByte below old]
    rw [payload] at final
    constructor
    · intro kept
      refine .inr (.inr ⟨nothing, fun _ i old new => ?_⟩)
      rw [← final i old new, ← payload]
      exact kept (by omega) i old new
    · rintro (room | ⟨other, found, present, _⟩ | ⟨_, equal⟩) _ i old new
      · exact (crowded room).elim
      · rw [nothing, Option.some.injEq] at found
        exact (present found.symm).elim
      · rw [payload, final i old new]
        exact equal joins i old new
  | refused crowded nothing stuck =>
    constructor
    · intro _
      exact .inr (.inr ⟨nothing, fun joins => (stuck joins).elim⟩)
    · intro _ present
      exact (present rfl).elim

/-- Exactly when `realloc` keeps what the client stored. -/
theorem realloc_contents_iff (setup : Setup arch memory vtable start bytes created zone)
    (legal : Legal (step arch zone) (Allowed arch zone) (Heap.fresh created) calls) :
    ∃ heap, run (step arch zone) (Heap.fresh created) calls = some heap ∧
      ∀ ptr newSize, (heap.live ptr).isSome → 0 < newSize → newSize < arch.modulus →
        ∃ changed result, realloc arch heap.memory zone ptr newSize = some (changed, result) ∧
          ((result ≠ 0 → ∀ i, i < extent arch heap.memory ptr → i < newSize →
              changed (result + i) = heap.memory (ptr + i)) ↔
            KeepsContents arch heap.memory zone ptr newSize) := by
  obtain ⟨heap, finished, blocks, tracks⟩ := setup.run_tracks (fun _ _ _ tracks => tracks.proper) legal
  refine ⟨heap, finished, fun ptr newSize live positive fits => ?_⟩
  obtain ⟨changed, result, returned, outcome⟩ :=
    tracks.represents.realloc (tracks.extent live) positive fits
  exact ⟨changed, result, returned, outcome.contents fits⟩

theorem realloc_contents_iff_sample :
    ∃ heap, run (step .i386 4096) (Heap.fresh sampleZone)
        [.malloc 8, .malloc 8, .write 4120 0 7] = some heap ∧
      ∀ ptr newSize, (heap.live ptr).isSome → 0 < newSize → newSize < Arch.i386.modulus →
        ∃ changed result, realloc .i386 heap.memory 4096 ptr newSize = some (changed, result) ∧
          ((result ≠ 0 → ∀ i, i < extent .i386 heap.memory ptr → i < newSize →
              changed (result + i) = heap.memory (ptr + i)) ↔
            KeepsContents .i386 heap.memory 4096 ptr newSize) :=
  realloc_contents_iff sampleZone_setup (by decide +kernel)

/-- A byte stored in the first of two allocations is lost when it is made larger. -/
theorem realloc_loses_contents :
    ∃ heap, run (step .i386 4096) (Heap.fresh sampleZone)
        [.malloc 8, .malloc 8, .write 4120 0 7] = some heap ∧
      (heap.live 4120).isSome ∧ 0 < extent .i386 heap.memory 4120 ∧ heap.memory 4120 = 7 ∧
      ∃ changed, realloc .i386 heap.memory 4096 4120 100 = some (changed, 4168) ∧
        changed 4168 = 0 := by
  have run_eq : (run (step .i386 4096) (Heap.fresh sampleZone)
      [.malloc 8, .malloc 8, .write 4120 0 7]).map (fun heap => ((heap.live 4120).isSome,
        extent .i386 heap.memory 4120, heap.memory 4120,
        (realloc .i386 heap.memory 4096 4120 100).map (fun out => (out.2, out.1 4168)))) =
      some (true, 8, 7, some (4168, 0)) := by decide +kernel
  obtain ⟨heap, finished, facts⟩ := Option.map_eq_some_iff.mp run_eq
  simp only [Prod.mk.injEq] at facts
  obtain ⟨live, extent, stored, returned⟩ := facts
  obtain ⟨⟨changed, result⟩, called, values⟩ := Option.map_eq_some_iff.mp returned
  simp only [Prod.mk.injEq] at values
  exact ⟨heap, finished, live, by omega, stored, changed, by rw [called, values.1], values.2⟩

end FlapjackOS.Malloc
