import FlapjackOS.Malloc.Fit

namespace FlapjackOS.Malloc

open Machine Tiling Runs CString

/-- `count * size` on `size_t` operands. -/
def product (arch : Arch) (count size : Nat) : Nat := count * size % arch.modulus

/-- `calloc`. The result of `malloc` is not looked at before it is cleared. -/
def calloc (arch : Arch) (memory : Memory) (zone count size : Nat) : Option (Memory × Nat) := do
  let (memory, result) ← malloc arch memory zone (product arch count size)
  return (memset arch memory result 0 (product arch count size), result)

/-- The addresses that `calloc` clears, in order. -/
def callocStores (arch : Arch) (memory : Memory) (zone count size : Nat) : Option (List Nat) :=
  (malloc arch memory zone (product arch count size)).map fun (_, result) =>
    (List.range (product arch count size)).map (arch.add result)

section
variable (arch : Arch) (zone : Nat) (heap : Heap)

/-- A new block of at least `bytes` bytes, all of them zero. -/
structure Cleared (after : Memory) (ptr bytes : Nat) : Prop where
  fresh : heap.live ptr = none
  listed : ∃ headers, visited arch after zone = some headers ∧ ptr - sizeofBlock arch ∈ headers
  inuse : inuse arch after (ptr - sizeofBlock arch) = true
  room : bytes ≤ extent arch after ptr
  zero : ∀ i, i < bytes → after (ptr + i) = 0

/-- No block of the zone has room for `bytes` bytes. -/
def OutOfMemory (memory : Memory) (headers : List Nat) (bytes : Nat) : Prop :=
  ∀ block, ¬ Fitting arch memory headers ((bytes + 3) / 4 * 4) block

/-- What `calloc` is to do: clear a block for the whole product, or do nothing at all. -/
structure Promised (headers : List Nat) (count size : Nat) (after : Memory) (ptr : Nat) (stores : List Nat) :
    Prop where
  served : ptr = 0 ∨ Cleared arch zone heap after ptr (count * size)
  refused : OutOfMemory arch heap.memory headers (count * size) →
    ptr = 0 ∧ after = heap.memory ∧ stores = []

/-- The product does not wrap if there is a block for what it wraps to, and is zero if there is none. -/
def Manageable (memory : Memory) (headers : List Nat) (count size : Nat) : Prop :=
  (¬ OutOfMemory arch memory headers (product arch count size) → count * size < arch.modulus) ∧
    (OutOfMemory arch memory headers (product arch count size) → product arch count size = 0)

end

theorem calloc_of_malloc {count size : Nat}
    (returned : malloc arch memory zone (product arch count size) = some (changed, ptr)) :
    calloc arch memory zone count size = some (memset arch changed ptr 0 (product arch count size), ptr) ∧
      callocStores arch memory zone count size =
        some ((List.range (product arch count size)).map (arch.add ptr)) := by
  rw [calloc, callocStores, returned]
  exact ⟨rfl, rfl⟩

section
variable {arch : Arch} {zone total : Nat} {heap : Heap} {blocks : List Block}

theorem OutOfMemory.mono (out : OutOfMemory arch memory headers bytes) (more : bytes ≤ other) :
    OutOfMemory arch memory headers other := by
  intro block fitting
  refine out block ⟨fitting.1, fitting.2.1, Nat.le_trans ?_ fitting.2.2⟩
  exact Nat.mul_le_mul_right 4 (Nat.div_le_div_right (by omega))

theorem Allocated.listed (used : Allocated arch zone blocks ptr bytes) :
    ptr - sizeofBlock arch ∈ addresses (sizeofBlock arch) (firstBlock arch zone) blocks := by
  obtain ⟨front, block, rest, rfl, _, place, _⟩ := used.focus
  rw [place, Nat.add_sub_cancel, addresses_append]
  simp [addresses]

/-- A granted block that is cleared stays a block of the zone. -/
theorem Tracks.cleared (tracks : Tracks arch zone (zone + total) heap blocks)
    (granted : Granted arch zone (zone + total) heap.memory changed blocks bytes ptr) :
    Cleared arch zone heap (memset arch changed ptr 0 bytes) ptr bytes := by
  obtain ⟨positive, fresh, new, room, enough, served⟩ := granted
  have used : Allocated arch zone new ptr room := (served.rebound ptr room).mpr (.inl rfl)
  have bounds := served.represents.payload_bounds used
  have bounded := served.represents.bounded
  have outside : ∀ x, x < ptr ∨ ptr + room ≤ x → memset arch changed ptr 0 bytes x = changed x :=
    fun x apart => memset_outside (by omega) (by omega)
  have represents : Represents arch (memset arch changed ptr 0 bytes) zone (zone + total) new :=
    ⟨served.represents.write used outside, served.represents.coalesced⟩
  refine ⟨tracks.not_live fresh, ⟨_, represents.wellFormed.forward, Allocated.listed used⟩,
    represents.payload_inuse used, ?_, fun i inside => memset_inside (by omega) inside⟩
  rwa [Malloc.extent, represents.payload_size used]

theorem Tracks.calloc (tracks : Tracks arch zone (zone + total) heap blocks) (count size : Nat) :
    ∃ after ptr stores, Malloc.calloc arch heap.memory zone count size = some (after, ptr) ∧
      callocStores arch heap.memory zone count size = some stores ∧
      (Promised arch zone heap (addresses (sizeofBlock arch) (firstBlock arch zone) blocks) count size
          after ptr stores ↔
        Manageable arch heap.memory (addresses (sizeofBlock arch) (firstBlock arch zone) blocks) count size) := by
  have fits : product arch count size < arch.modulus := Nat.mod_lt _ arch.modulus_pos
  have whole : product arch count size ≤ count * size := Nat.mod_le _ _
  obtain ⟨changed, ptr, returned, fit⟩ := tracks.represents.malloc_fit fits
  obtain ⟨called, stores⟩ := calloc_of_malloc returned
  refine ⟨_, ptr, _, called, stores, ?_⟩
  by_cases null : ptr = 0
  · -- the bytes from address zero on are cleared
    have out : OutOfMemory arch heap.memory _ (product arch count size) := fit.refused_iff.mp null
    constructor
    · intro promised
      refine ⟨fun other => absurd out other, fun _ => ?_⟩
      have nothing := (promised.refused (out.mono whole)).2.2
      simpa using nothing
    · intro manageable
      have zero := manageable.2 out
      refine ⟨.inl null, fun _ => ⟨null, ?_, by rw [zero]; rfl⟩⟩
      rw [zero, fit.untouched null]
      rfl
  · have found : ¬ OutOfMemory arch heap.memory _ (product arch count size) :=
      fun out => null (fit.refused_iff.mpr out)
    have granted : Granted arch zone (zone + total) heap.memory changed blocks (product arch count size) ptr := by
      obtain ⟨best, _, ⟨_, refused⟩ | ⟨other, served, _, granted, _⟩⟩ := tracks.represents.malloc fits
      · rw [returned, Option.some.injEq, Prod.mk.injEq] at refused
        exact absurd refused.2 null
      · rw [returned, Option.some.injEq, Prod.mk.injEq] at served
        rwa [served.1, served.2]
    constructor
    · intro promised
      refine ⟨fun _ => ?_, fun out => absurd out found⟩
      have cleared := promised.served.resolve_left null
      exact Nat.lt_of_le_of_lt cleared.room load_lt
    · intro manageable
      have same : product arch count size = count * size := Nat.mod_eq_of_lt (manageable.1 found)
      rw [same] at found granted ⊢
      exact ⟨.inr (tracks.cleared granted), fun out => absurd out found⟩

end

section
variable {arch : Arch} {memory created : Memory} {vtable start bytes zone : Nat} {calls : List Call}

/-- In every zone that a client can reach, `calloc` keeps its promise unless the product wraps to
something there is a block for, or there is none and the pointer that is cleared is null. -/
theorem calloc_promised_iff (success : create arch memory vtable start bytes = some (created, zone))
    (room : sizeofZone arch + sizeofBlock arch ≤ bytes) (fits : (start + 3) / 4 * 4 + bytes < arch.modulus)
    (legal : Legal (step arch zone) (Proper arch zone) (Heap.fresh created) calls) :
    ∃ final headers, run (step arch zone) (Heap.fresh created) calls = some final ∧
      visited arch final.memory zone = some headers ∧
      ∀ count size, ∃ after ptr stores, calloc arch final.memory zone count size = some (after, ptr) ∧
        callocStores arch final.memory zone count size = some stores ∧
        (Promised arch zone final headers count size after ptr stores ↔
          Manageable arch final.memory headers count size) := by
  obtain ⟨final, finished, blocks, tracks⟩ := (Setup.of_create success room fits).run_tracks (fun _ _ _ _ => id) legal
  exact ⟨final, _, finished, tracks.represents.wellFormed.forward, tracks.calloc⟩

theorem calloc_promised_sample :
    ∃ final headers, run (step .i386 4096) (Heap.fresh sampleZone) [.malloc 10, .malloc 8, .free 4120] = some final ∧
      visited .i386 final.memory 4096 = some headers ∧
      ∀ count size, ∃ after ptr stores, calloc .i386 final.memory 4096 count size = some (after, ptr) ∧
        callocStores .i386 final.memory 4096 count size = some stores ∧
        (Promised .i386 4096 final headers count size after ptr stores ↔
          Manageable .i386 final.memory headers count size) :=
  calloc_promised_iff sampleZone_setup.success (by decide) (by decide) (by decide +kernel)

/-- In a new zone of 512 bytes, 65536 objects of 65536 bytes are handed out as an empty block, and
600 bytes are cleared from address zero on. -/
theorem calloc_breaks_promise :
    visited .i386 sampleZone 4096 = some [4104] ∧
      (∃ after stores, calloc .i386 sampleZone 4096 65536 65536 = some (after, 4120) ∧
        callocStores .i386 sampleZone 4096 65536 65536 = some stores ∧
        ¬ Promised .i386 4096 (Heap.fresh sampleZone) [4104] 65536 65536 after 4120 stores) ∧
      ∃ after stores, calloc .i386 sampleZone 4096 1 600 = some (after, 0) ∧
        callocStores .i386 sampleZone 4096 1 600 = some stores ∧
        ¬ Promised .i386 4096 (Heap.fresh sampleZone) [4104] 1 600 after 0 stores := by
  refine ⟨by decide +kernel, ?_, ?_⟩
  · have empty : (malloc .i386 sampleZone 4096 (product .i386 65536 65536)).map Prod.snd = some 4120 := by
      decide +kernel
    obtain ⟨⟨changed, ptr⟩, returned, rfl⟩ := Option.map_eq_some_iff.mp empty
    obtain ⟨called, stores⟩ := calloc_of_malloc returned
    refine ⟨_, _, called, stores, fun promised => ?_⟩
    have cleared := promised.served.resolve_left (by decide)
    have bound : extent .i386 (memset .i386 changed 4120 0 (product .i386 65536 65536)) 4120 < 256 ^ 4 := load_lt
    have room := cleared.room
    omega
  · have null : (malloc .i386 sampleZone 4096 (product .i386 1 600)).map Prod.snd = some 0 := by
      decide +kernel
    obtain ⟨⟨changed, ptr⟩, returned, rfl⟩ := Option.map_eq_some_iff.mp null
    obtain ⟨called, stores⟩ := calloc_of_malloc returned
    refine ⟨_, _, called, stores, fun promised => ?_⟩
    have out : OutOfMemory .i386 sampleZone [4104] (1 * 600) := by
      rintro block ⟨member, -, room⟩
      rw [List.mem_singleton.mp member] at room
      exact absurd room (by decide +kernel)
    have nothing := List.range_eq_nil.mp (List.map_eq_nil_iff.mp (promised.refused out).2.2)
    exact absurd nothing (by decide)

end

end FlapjackOS.Malloc
