import FlapjackOS.Malloc.Safety

/-! `create` is given a buffer. The zone that it sets up stays inside the buffer if and only
if the buffer is aligned and has room for both headers. -/

namespace FlapjackOS.Malloc

open Machine Runs

/-- The `length` bytes at `x` lie in the buffer, whose end is a word like its start. -/
def Within (arch : Arch) (start bytes x length : Nat) : Prop :=
  start ≤ x ∧ x + length ≤ arch.add start bytes

/-- What `create` sets up is inside the buffer, and so is every payload handed out later. -/
structure Contained (arch : Arch) (start bytes : Nat) (created : Memory) (zone : Nat) : Prop where
  own : Within arch start bytes zone (sizeofZone arch)
  header : Within arch start bytes (head arch created zone) (sizeofBlock arch)
  payload : Within arch start bytes (head arch created zone + sizeofBlock arch)
    (size arch created (head arch created zone))
  payloads : ∀ calls, Legal (step arch zone) (Proper arch zone) (Heap.fresh created) calls →
    ∃ final, run (step arch zone) (Heap.fresh created) calls = some final ∧
      ∀ ptr, (final.live ptr).isSome → Within arch start bytes ptr (extent arch final.memory ptr)

section
variable {arch : Arch} {memory created : Memory} {vtable start bytes zone : Nat}

theorem within_iff (fits : start + bytes < Arch.modulus arch) :
    Within arch start bytes x length ↔ start ≤ x ∧ x + length ≤ start + bytes := by
  rw [Within, Arch.add_of_lt fits]

theorem Setup.contained (setup : Setup arch memory vtable start bytes created zone) :
    Contained arch start bytes created zone := by
  have place : zone = start := by
    obtain ⟨_, _, place⟩ := create_place setup.success
    rwa [if_neg (not_not.mpr setup.aligned)] at place
  have room := setup.room
  have held := setup.represents
  subst place
  refine ⟨?_, ?_, ?_, fun calls legal => ?_⟩
  · rw [within_iff setup.fits]
    omega
  · rw [within_iff setup.fits, held.head, firstBlock]
    omega
  · rw [within_iff setup.fits, held.head, held.chain.size, firstBlock]
    dsimp only
    omega
  · obtain ⟨final, finished, blocks, tracks⟩ := setup.run_tracks (fun _ _ _ _ => id) legal
    refine ⟨final, finished, fun ptr live => ?_⟩
    have inside := tracks.isolated.inside ptr live
    rw [within_iff setup.fits]
    omega

theorem Contained.setup (contained : Contained arch start bytes created zone)
    (success : create arch memory vtable start bytes = some (created, zone))
    (low : start < arch.modulus) (small : bytes < arch.modulus) :
    Setup arch memory vtable start bytes created zone := by
  have fits : start + bytes < arch.modulus := by
    by_contra wraps
    have own := contained.own
    rw [Within, Arch.add_of_le (Nat.le_of_not_lt wraps) (by omega)] at own
    omega
  have words := arch.wordBytes_cases
  have width : sizeofZone arch = 2 * arch.wordBytes := rfl
  have wide : sizeofBlock arch = 4 * arch.wordBytes := rfl
  have inside := (within_iff fits).mp contained.own
  obtain ⟨_, accepted, place⟩ := create_place success
  obtain ⟨first, stored⟩ := create_header success (by omega)
  have payload := (within_iff fits).mp contained.payload
  rw [first, size_eq, stored, firstBlock] at payload
  dsimp only at payload
  have room : sizeofZone arch + sizeofBlock arch ≤ bytes := by
    by_contra short
    rw [Arch.sub_sub_of_lt (by omega) (by omega)] at payload
    omega
  refine ⟨success, ?_, room, fits⟩
  -- an unaligned start moves the zone, and its end with it
  by_contra unaligned
  rw [if_pos unaligned, Arch.add_of_lt (by omega)] at place
  rw [Arch.sub_sub_of_le room small] at payload
  omega

/-- Of the buffers that pass the assertions, `create` stays inside those that are aligned,
have room for both headers and do not wrap around. -/
theorem create_contained_iff (memory : Memory) (vtable : Nat) (present : start ≠ 0)
    (low : start < arch.modulus) (small : bytes < arch.modulus) (accepted : sizeofZone arch < bytes) :
    ∃ created zone, create arch memory vtable start bytes = some (created, zone) ∧
      (Contained arch start bytes created zone ↔
        start % 4 = 0 ∧ sizeofZone arch + sizeofBlock arch ≤ bytes ∧ start + bytes < arch.modulus) := by
  obtain ⟨⟨created, zone⟩, success⟩ : ∃ result, create arch memory vtable start bytes = some result := by
    rw [create, if_neg (by omega)]
    exact ⟨_, rfl⟩
  refine ⟨created, zone, success, ?_⟩
  constructor
  · intro contained
    have setup := contained.setup success low small
    exact ⟨setup.aligned, setup.room, setup.fits⟩
  · rintro ⟨aligned, room, fits⟩
    exact Setup.contained ⟨success, aligned, room, fits⟩

theorem create_contained_sample :
    ∃ created zone, create .x86_64 (fun _ => 0) 0 8192 4096 = some (created, zone) ∧
      Contained .x86_64 8192 4096 created zone := by
  obtain ⟨created, zone, success, contained⟩ :=
    @create_contained_iff .x86_64 8192 4096 (fun _ => 0) 0 (by decide) (by decide) (by decide) (by decide)
  exact ⟨created, zone, success, contained.mpr (by decide)⟩

/-- Behind the zone header of twelve bytes there is no room for a block, and the size of the
first block wraps around. An unaligned buffer of 512 bytes is left by three bytes. -/
theorem create_leaves_buffer :
    (∃ created, create .i386 (fun _ => 0) 0 4096 12 = some (created, 4096) ∧
      head .i386 created 4096 = 4104 ∧ size .i386 created 4104 = 4294967284 ∧
      ¬ Contained .i386 4096 12 created 4096) ∧
    ∃ created, create .i386 (fun _ => 0) 0 4097 512 = some (created, 4100) ∧
      head .i386 created 4100 = 4108 ∧ size .i386 created 4108 = 488 ∧
      (malloc .i386 created 4100 488).map Prod.snd = some 4124 ∧ 4097 + 512 < 4124 + 488 ∧
      ¬ Contained .i386 4097 512 created 4100 := by
  refine ⟨⟨_, rfl, by decide +kernel, by decide +kernel, fun contained => ?_⟩,
    _, rfl, by decide +kernel, by decide +kernel, by decide +kernel, by decide, fun contained => ?_⟩
  · exact absurd (contained.setup rfl (by decide) (by decide)).room (by decide)
  · exact absurd (contained.setup rfl (by decide) (by decide)).aligned (by decide)

end

end FlapjackOS.Malloc
