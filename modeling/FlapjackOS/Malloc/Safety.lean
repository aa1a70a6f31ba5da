import FlapjackOS.Malloc.Run
import FlapjackOS.Malloc.WellFormed

/-! What holds of a zone after any sequence of calls. -/

namespace FlapjackOS.Malloc

open Machine Tiling Runs

variable {arch : Arch} {memory created : Memory} {vtable start bytes zone limit : Nat} {heap after : Heap}
  {blocks : List Block} {order : List Nat} {calls : List Call}

/-- The payload bytes that belong to a live pointer. -/
def extent (arch : Arch) (memory : Memory) (ptr : Nat) : Nat :=
  size arch memory (ptr - sizeofBlock arch)

/-- What a client may rely on for the pointers it holds. -/
structure Isolated (arch : Arch) (zone bytes : Nat) (heap : Heap) : Prop where
  room : ∀ ptr requested, heap.live ptr = some requested → requested ≤ extent arch heap.memory ptr
  inside : ∀ ptr, (heap.live ptr).isSome →
    zone + sizeofZone arch ≤ ptr ∧ ptr + extent arch heap.memory ptr ≤ zone + bytes
  aligned : ∀ ptr, (heap.live ptr).isSome → ptr % 4 = 0
  apart : ∀ ptr other, (heap.live ptr).isSome → (heap.live other).isSome → ptr ≠ other →
    ptr + extent arch heap.memory ptr ≤ other ∨ other + extent arch heap.memory other ≤ ptr
  clear : ∃ headers, visited arch heap.memory zone = some headers ∧
    ∀ ptr, (heap.live ptr).isSome → ∀ block ∈ headers,
      ptr + extent arch heap.memory ptr ≤ block ∨ block + sizeofBlock arch ≤ ptr

theorem Tracks.extent (tracks : Tracks arch zone limit heap blocks) (live : (heap.live ptr).isSome) :
    Allocated arch zone blocks ptr (Malloc.extent arch heap.memory ptr) := by
  obtain ⟨size, used⟩ := tracks.allocated live
  rw [Malloc.extent, tracks.represents.payload_size used]
  exact used

theorem Tracks.isolated (tracks : Tracks arch zone (zone + bytes) heap blocks) :
    Isolated arch zone bytes heap where
  room := by
    intro ptr requested live
    obtain ⟨size, used, enough⟩ := tracks.covered ptr requested live
    rwa [Malloc.extent, tracks.represents.payload_size used]
  inside := by
    intro ptr live
    have bounds := tracks.represents.payload_bounds (tracks.extent live)
    simp only [firstBlock] at bounds
    omega
  aligned := fun _ live => tracks.represents.payload_aligned (tracks.extent live)
  apart := fun _ _ first second different =>
    inUse_disjoint (tracks.extent first) (tracks.extent second) different
  clear := by
    refine ⟨_, tracks.represents.wellFormed.forward, fun ptr live block member => ?_⟩
    exact inUse_clear (tracks.extent live) member

theorem step_free_live (stepped : step arch zone heap (.free ptr) = some after) :
    after.live = release heap.live ptr := by
  simp only [step] at stepped
  cases freed : free arch heap.memory zone ptr with
  | none => simp [freed] at stepped
  | some memory =>
    simp only [freed, Option.bind_eq_bind, Option.bind_some, Option.pure_def, Option.some.injEq]
      at stepped
    rw [← stepped]

/-- Freeing all live pointers, in whatever order they are listed. -/
theorem Tracks.free_all (tracks : Tracks arch zone limit heap blocks) (distinct : order.Nodup)
    (members : ∀ ptr, ptr ∈ order ↔ (heap.live ptr).isSome) :
    ∃ done new, run (Malloc.step arch zone) heap (order.map Call.free) = some done ∧
      Tracks arch zone limit done new ∧ ∀ ptr, done.live ptr = none := by
  induction order generalizing heap blocks with
  | nil =>
    refine ⟨heap, blocks, rfl, tracks, fun ptr => ?_⟩
    by_contra live
    have member := (members ptr).mpr (Option.isSome_iff_ne_none.mpr live)
    simp at member
  | cons first rest ih =>
    obtain ⟨absent, later⟩ := List.nodup_cons.mp distinct
    have live : (heap.live first).isSome := (members first).mp (List.mem_cons_self ..)
    have allowed : Allowed arch zone heap (.free first) := ⟨.inr live, trivial⟩
    obtain ⟨next, stepped, ⟨new, nextTracks⟩, _⟩ := tracks.serve (tracks.proper allowed)
    have released := step_free_live stepped
    have remaining : ∀ ptr, ptr ∈ rest ↔ (next.live ptr).isSome := by
      intro ptr
      rw [released, release]
      by_cases same : ptr = first
      · rw [if_pos same, same]
        simp [absent]
      · rw [if_neg same, ← members ptr]
        simp [same]
    obtain ⟨done, final, finished, result⟩ := ih nextTracks later remaining
    exact ⟨done, final, by simp [run, stepped, finished], result⟩

theorem Tracks.single (tracks : Tracks arch zone limit heap blocks)
    (idle : ∀ ptr, heap.live ptr = none) :
    blocks = [⟨limit - firstBlock arch zone - sizeofBlock arch, false⟩] := by
  have total := tracks.represents.total
  have unused : ∀ payload size, ¬ Allocated arch zone blocks payload size := by
    intro payload size used
    have owned := tracks.owned payload size used
    simp [idle payload] at owned
  cases blocks with
  | nil => exact (tracks.represents.nonempty rfl).elim
  | cons block rest =>
    obtain ⟨alone, flag⟩ := coalesced_idle tracks.represents.coalesced unused
    subst alone
    simp only [span] at total
    obtain ⟨size, inuse⟩ := block
    simp only at flag total
    subst flag
    congr 2
    omega

/-- No sequence of calls damages the block list. -/
theorem block_list_well_formed (setup : Setup arch memory vtable start bytes created zone)
    (legal : Legal (step arch zone) (Allowed arch zone) (Heap.fresh created) calls) :
    ∃ final headers, run (step arch zone) (Heap.fresh created) calls = some final ∧
      WellFormed arch final.memory zone bytes headers := by
  obtain ⟨final, finished, blocks, tracks⟩ := setup.run_tracks (fun _ _ _ tracks => tracks.proper) legal
  exact ⟨final, _, finished, tracks.represents.wellFormed⟩

/-- A small zone for concrete runs. -/
def sampleZone : Memory :=
  ((create .i386 (fun _ => 0) 0 4096 512).map Prod.fst).getD (fun _ => 0)

theorem sampleZone_setup : Setup .i386 (fun _ => 0) 0 4096 512 sampleZone 4096 :=
  ⟨rfl, rfl, by decide, by decide⟩

theorem block_list_well_formed_sample :
    ∃ final headers, run (step .i386 4096) (Heap.fresh sampleZone)
        [.malloc 10, .memalign 20 64, .write 4120 9 7, .realloc 4120 40, .free 4224] = some final ∧
      WellFormed .i386 final.memory 4096 512 headers :=
  block_list_well_formed sampleZone_setup (by decide +kernel)

/-- `memalign` adds the header and the alignment to the rounded size without a
check. Here the three sum up to zero, the search accepts the only block, and the
block carved out of it overlaps the header in front. -/
theorem memalign_sum_wraps :
    4294967275 + sizeofBlock .i386 + 4 < Arch.i386.modulus ∧ Nat.isPowerOfTwo 4 ∧
    findBestFit .i386 sampleZone 4096 (Arch.i386.add (Arch.i386.add
      (roundUpBlockSize .i386 4294967275) (minSplitSize .i386)) 4) = some 4104 ∧
    ∃ after, step .i386 4096 (Heap.fresh sampleZone) (.memalign 4294967275 4) = some after ∧
      ∀ headers, ¬ WellFormed .i386 after.memory 4096 512 headers := by
  refine ⟨by decide, by decide, by decide +kernel, ?_⟩
  have listed : (step .i386 4096 (Heap.fresh sampleZone) (.memalign 4294967275 4)).bind
      (fun after => visited .i386 after.memory 4096) = some [4104, 4124, 4120] := by decide +kernel
  cases stepped : step .i386 4096 (Heap.fresh sampleZone) (.memalign 4294967275 4) with
  | none => simp [stepped] at listed
  | some after =>
    refine ⟨after, rfl, fun headers formed => ?_⟩
    simp only [stepped, Option.bind_some, formed.forward, Option.some.injEq] at listed
    have tiled := formed.tiled
    rw [listed] at tiled
    have last := (List.isChain_cons_cons.mp (List.isChain_cons_cons.mp tiled).2).1
    omega

/-- Live allocations keep their place and their contents. -/
theorem live_allocations_isolated (setup : Setup arch memory vtable start bytes created zone)
    (legal : Legal (step arch zone) (Allowed arch zone) (Heap.fresh created) calls) :
    ∃ final, run (step arch zone) (Heap.fresh created) calls = some final ∧
      Isolated arch zone bytes final ∧
      ∀ call, Allowed arch zone final call →
        ∃ after, step arch zone final call = some after ∧
          ∀ ptr, (final.live ptr).isSome → ptr ≠ call.passed →
            ∀ i, i < extent arch final.memory ptr →
              after.memory (ptr + i) = final.memory (ptr + i) := by
  obtain ⟨final, finished, blocks, tracks⟩ := setup.run_tracks (fun _ _ _ tracks => tracks.proper) legal
  refine ⟨final, finished, tracks.isolated, fun call allowed => ?_⟩
  obtain ⟨after, stepped, advances⟩ := tracks.serve (tracks.proper allowed)
  refine ⟨after, stepped, fun ptr live other i inside => ?_⟩
  exact advances.kept ptr _ (tracks.extent live) other (ptr + i) (by omega) (by omega)

theorem live_allocations_isolated_sample :
    ∃ final, run (step .i386 4096) (Heap.fresh sampleZone)
        [.malloc 10, .memalign 20 64, .write 4120 9 7, .realloc 4224 400] = some final ∧
      Isolated .i386 4096 512 final :=
  (live_allocations_isolated sampleZone_setup (by decide +kernel)).imp fun _ result => ⟨result.1, result.2.1⟩

/-- Freeing every live allocation, in any order, gives back the zone as it was
created: one free block. -/
theorem freeing_all_restores_zone (setup : Setup arch memory vtable start bytes created zone)
    (legal : Legal (step arch zone) (Allowed arch zone) (Heap.fresh created) calls) :
    ∃ final, run (step arch zone) (Heap.fresh created) calls = some final ∧
      ∀ order : List Nat, order.Nodup → (∀ ptr, ptr ∈ order ↔ (final.live ptr).isSome) →
        ∃ done, run (step arch zone) final (order.map Call.free) = some done ∧
          head arch done.memory zone = head arch created zone ∧
          visited arch done.memory zone = some [head arch created zone] ∧
          header arch done.memory (head arch created zone) =
            ⟨0, 0, size arch created (head arch created zone), false⟩ := by
  obtain ⟨final, finished, blocks, tracks⟩ := setup.run_tracks (fun _ _ _ tracks => tracks.proper) legal
  refine ⟨final, finished, fun order distinct members => ?_⟩
  obtain ⟨done, new, freed, restored, idle⟩ := tracks.free_all distinct members
  have single := restored.single idle
  subst single
  have initial := setup.represents
  have place : zone + bytes - firstBlock arch zone - sizeofBlock arch =
      bytes - sizeofZone arch - sizeofBlock arch := by
    simp only [firstBlock]
    omega
  have chain := restored.represents.chain
  refine ⟨done, freed, ?_, ?_, ?_⟩
  · rw [restored.represents.head, initial.head]
  · rw [restored.represents.wellFormed.forward, initial.head]
    rfl
  · rw [initial.head, chain.1, Chain.size initial.chain, place]
    rfl

theorem freeing_all_restores_zone_sample :
    ∃ final, run (step .i386 4096) (Heap.fresh sampleZone)
        [.malloc 10, .memalign 20 64, .malloc 8, .realloc 4224 100] = some final ∧
      ∀ order : List Nat, order.Nodup → (∀ ptr, ptr ∈ order ↔ (final.live ptr).isSome) →
        ∃ done, run (step .i386 4096) final (order.map Call.free) = some done ∧
          visited .i386 done.memory 4096 = some [4104] := by
  obtain ⟨final, ran, restores⟩ := @freeing_all_restores_zone .i386 _ _ _ _ _ _
    [.malloc 10, .memalign 20 64, .malloc 8, .realloc 4224 100] sampleZone_setup (by decide +kernel)
  refine ⟨final, ran, fun order distinct members => ?_⟩
  obtain ⟨done, freed, -, visits, -⟩ := restores order distinct members
  exact ⟨done, freed, visits⟩

end FlapjackOS.Malloc
