import FlapjackOS.Machine.Runs
import FlapjackOS.Malloc.Resize

/-! A client's view of the zone: the calls it makes, the pointers it holds, and
the bytes it writes through them. -/

namespace FlapjackOS.Malloc

open Machine Tiling Runs

/-- Memory, and the requested size of every live pointer. -/
structure Heap where
  memory : Memory
  live : Nat → Option Nat

inductive Call where
  | malloc (bytes : Nat)
  | free (ptr : Nat)
  | realloc (ptr bytes : Nat)
  | memalign (bytes alignment : Nat)
  /-- The client stores a byte through a pointer it holds. -/
  | write (ptr offset : Nat) (value : UInt8)
  deriving DecidableEq, Repr

variable {arch : Arch} {memory changed created : Memory} {zone limit vtable start bytes : Nat} {heap : Heap}
  {blocks new : List Block}

/-- The pointer handed to the call, zero if there is none. -/
def Call.passed : Call → Nat
  | .free ptr | .realloc ptr _ | .write ptr _ _ => ptr
  | .malloc _ | .memalign _ _ => 0

def release (live : Nat → Option Nat) (ptr : Nat) : Nat → Option Nat :=
  fun other => if other = ptr then none else live other

def acquire (live : Nat → Option Nat) (ptr bytes : Nat) : Nat → Option Nat :=
  fun other => if ptr ≠ 0 ∧ other = ptr then some bytes else live other

def step (arch : Arch) (zone : Nat) (heap : Heap) : Call → Option Heap
  | .malloc bytes => do
    let (memory, ptr) ← malloc arch heap.memory zone bytes
    return ⟨memory, acquire heap.live ptr bytes⟩
  | .free ptr => do
    let memory ← free arch heap.memory zone ptr
    return ⟨memory, release heap.live ptr⟩
  | .realloc ptr bytes => do
    let (memory, result) ← realloc arch heap.memory zone ptr bytes
    -- a refused request leaves the old pointer with the client
    if result = 0 ∧ bytes ≠ 0 then return ⟨memory, heap.live⟩
    return ⟨memory, acquire (release heap.live ptr) result bytes⟩
  | .memalign bytes alignment => do
    let (memory, ptr) ← memalign arch heap.memory zone bytes alignment
    return ⟨memory, acquire heap.live ptr bytes⟩
  | .write ptr offset value => some ⟨storeByte heap.memory (ptr + offset) value, heap.live⟩

/-- What the client must respect, whatever blocks there are. -/
def Client (arch : Arch) (heap : Heap) : Call → Prop
  | .malloc bytes => bytes < arch.modulus
  | .free ptr => ptr = 0 ∨ (heap.live ptr).isSome
  | .realloc ptr bytes => (ptr = 0 ∨ (heap.live ptr).isSome) ∧ bytes < arch.modulus
  | .memalign bytes alignment =>
    bytes < arch.modulus ∧ alignment < arch.modulus ∧ alignment.isPowerOfTwo
  | .write ptr offset _ => offset < (heap.live ptr).getD 0

instance Client.decidable (arch : Arch) (heap : Heap) : ∀ call, Decidable (Client arch heap call)
  | .malloc _ | .write _ _ _ => inferInstanceAs (Decidable (_ < _))
  | .free _ => inferInstanceAs (Decidable (_ ∨ _))
  | .realloc _ _ | .memalign _ _ => inferInstanceAs (Decidable (_ ∧ _))

/-- A condition that the calls of `memalign` have to meet. -/
def Call.Meets (condition : Nat → Nat → Prop) : Call → Prop
  | .memalign bytes alignment => condition bytes alignment
  | _ => True

instance Call.Meets.decidable {condition : Nat → Nat → Prop} [∀ bytes, DecidablePred (condition bytes)] :
    ∀ call : Call, Decidable (call.Meets condition)
  | .memalign bytes alignment => inferInstanceAs (Decidable (condition bytes alignment))
  | .malloc _ | .free _ | .realloc _ _ | .write _ _ _ => .isTrue trivial

section
variable (arch : Arch) (zone : Nat) (heap : Heap)

/-- There is a block for the call, if it cannot do without one. -/
def Provides : Call → Prop :=
  Call.Meets (Serviceable arch heap.memory zone)

instance Provides.decidable (arch : Arch) (zone : Nat) (heap : Heap) (call : Call) :
    Decidable (Provides arch zone heap call) := Call.Meets.decidable call

/-- A call of the client's that has its block. -/
def Proper (call : Call) : Prop :=
  Client arch heap call ∧ Provides arch zone heap call

instance Proper.decidable (call : Call) :
    Decidable (Proper arch zone heap call) := inferInstanceAs (Decidable (_ ∧ _))

/-- What the client must respect. -/
def Allowed (call : Call) : Prop :=
  Client arch heap call ∧
    call.Meets fun bytes alignment => 4 ≤ alignment ∧ BlockFound arch heap.memory zone bytes alignment

instance Allowed.decidable (call : Call) :
    Decidable (Allowed arch zone heap call) := inferInstanceAs (Decidable (_ ∧ _))

end

theorem Allowed.proper (allowed : Allowed arch zone heap call)
    (held : Represents arch heap.memory zone limit blocks) : Proper arch zone heap call := by
  cases call with
  | memalign bytes alignment =>
    obtain ⟨client, large, found⟩ := allowed
    exact ⟨client, held.serviceable (by omega) found⟩
  | malloc | free | realloc | write => exact allowed

/-- The live pointers are exactly the payloads in use, each with room for what
was asked for. -/
structure Tracks (arch : Arch) (zone limit : Nat) (heap : Heap) (blocks : List Block) : Prop where
  represents : Represents arch heap.memory zone limit blocks
  covered : ∀ ptr bytes, heap.live ptr = some bytes →
    ∃ extent, Allocated arch zone blocks ptr extent ∧ bytes ≤ extent
  owned : ∀ ptr extent, Allocated arch zone blocks ptr extent → (heap.live ptr).isSome

section
variable (tracks : Tracks arch zone limit heap blocks)
include tracks

theorem Tracks.allocated (live : (heap.live ptr).isSome) :
    ∃ extent, Allocated arch zone blocks ptr extent := by
  obtain ⟨bytes, some⟩ := Option.isSome_iff_exists.mp live
  obtain ⟨extent, used, _⟩ := tracks.covered ptr bytes some
  exact ⟨extent, used⟩

theorem Tracks.not_live (unused : ∀ extent, ¬ Allocated arch zone blocks ptr extent) :
    heap.live ptr = none := by
  by_contra live
  obtain ⟨extent, used⟩ := tracks.allocated (Option.isSome_iff_ne_none.mpr live)
  exact unused extent used

theorem Tracks.release_null : release heap.live 0 = heap.live := by
  have null : heap.live 0 = none := by
    refine tracks.not_live (fun extent used => ?_)
    have bounds := inUse_bounds used
    have wide := sizeofBlock_pos arch
    omega
  funext ptr
  unfold release
  split
  · rename_i same
    rw [same, null]
  · rfl

/-- The passed pointer is given up and nothing is handed out. -/
theorem Tracks.drop (served : Served arch zone limit heap.memory changed blocks new passed none) :
    Tracks arch zone limit ⟨changed, release heap.live passed⟩ new where
  represents := served.represents
  covered := by
    intro ptr bytes live
    simp only [release] at live
    split at live
    · simp at live
    · rename_i different
      obtain ⟨extent, used, enough⟩ := tracks.covered ptr bytes live
      exact ⟨extent, (served.rebound ptr extent).mpr (.inr ⟨different, used⟩), enough⟩
  owned := by
    intro ptr extent used
    rcases (served.rebound ptr extent).mp used with given | ⟨different, old⟩
    · simp at given
    · simp only [release, if_neg different]
      exact tracks.owned ptr extent old

/-- The passed pointer is given up and `result` is handed out. -/
theorem Tracks.rebind
    (served : Served arch zone limit heap.memory changed blocks new passed (some (result, granted)))
    (positive : 0 < result) (enough : bytes ≤ granted) :
    Tracks arch zone limit ⟨changed, acquire (release heap.live passed) result bytes⟩ new where
  represents := served.represents
  covered := by
    intro ptr size live
    simp only [acquire, release] at live
    split at live
    · rename_i handed
      refine ⟨granted, (served.rebound ptr granted).mpr (.inl (by rw [handed.2])), ?_⟩
      simp only [Option.some.injEq] at live
      omega
    · split at live
      · simp at live
      · rename_i different
        obtain ⟨extent, used, room⟩ := tracks.covered ptr size live
        exact ⟨extent, (served.rebound ptr extent).mpr (.inr ⟨different, used⟩), room⟩
  owned := by
    intro ptr extent used
    simp only [acquire, release]
    rcases (served.rebound ptr extent).mp used with given | ⟨different, old⟩
    · simp only [Option.some.injEq, Prod.mk.injEq] at given
      rw [if_pos ⟨by omega, given.1.symm⟩]
      rfl
    · rw [if_neg different]
      split
      · rfl
      · exact tracks.owned ptr extent old

end

/-- A step that keeps the live pointers tracked and writes to no payload in use
other than the passed one. -/
structure Advances (arch : Arch) (zone limit : Nat) (heap : Heap) (blocks : List Block) (passed : Nat)
    (next : Heap) : Prop where
  tracks : ∃ new, Tracks arch zone limit next new
  kept : ∀ payload extent, Allocated arch zone blocks payload extent → payload ≠ passed →
    ∀ x, payload ≤ x → x < payload + extent → next.memory x = heap.memory x

theorem acquire_release (live : Nat → Option Nat) (positive : 0 < ptr) :
    acquire (release live ptr) ptr bytes = acquire live ptr bytes := by
  funext other
  simp only [acquire, release]
  by_cases same : other = ptr
  · rw [if_pos ⟨by omega, same⟩, if_pos ⟨by omega, same⟩]
  · rw [if_neg (fun both => same both.2), if_neg same, if_neg (fun both => same both.2)]

theorem acquire_null (live : Nat → Option Nat) : acquire live 0 bytes = live := by
  funext other
  simp [acquire]

section
variable (tracks : Tracks arch zone limit heap blocks)
include tracks

theorem Tracks.granted (granted : Granted arch zone limit heap.memory changed blocks bytes ptr) :
    Advances arch zone limit heap blocks passed ⟨changed, acquire heap.live ptr bytes⟩ := by
  obtain ⟨positive, fresh, new, extent, enough, served⟩ := granted
  refine ⟨⟨new, ?_⟩, fun payload size used _ => ?_⟩
  · rw [← acquire_release heap.live positive]
    exact tracks.rebind served positive enough
  · exact served.kept payload size used (fun same => fresh size (same ▸ used))

theorem Tracks.idle : Advances arch zone limit heap blocks passed heap :=
  ⟨⟨blocks, tracks⟩, fun _ _ _ _ _ _ _ => rfl⟩

theorem Tracks.malloc (fits : bytes < arch.modulus) :
    ∃ changed ptr, Malloc.malloc arch heap.memory zone bytes = some (changed, ptr) ∧
      Advances arch zone limit heap blocks passed ⟨changed, acquire heap.live ptr bytes⟩ := by
  obtain ⟨best, _, outcome⟩ := tracks.represents.malloc fits
  rcases outcome with ⟨_, returned⟩ | ⟨changed, returned, _, granted, _⟩
  · refine ⟨heap.memory, 0, returned, ?_⟩
    rw [acquire_null]
    exact tracks.idle
  · exact ⟨changed, _, returned, tracks.granted granted⟩

theorem Tracks.realloc (live : (heap.live ptr).isSome) (fits : bytes < arch.modulus) :
    ∃ changed result, Malloc.realloc arch heap.memory zone ptr bytes = some (changed, result) ∧
      (result = 0 ∧ bytes ≠ 0 → Advances arch zone limit heap blocks ptr ⟨changed, heap.live⟩) ∧
      (¬ (result = 0 ∧ bytes ≠ 0) → Advances arch zone limit heap blocks ptr
        ⟨changed, acquire (release heap.live ptr) result bytes⟩) := by
  obtain ⟨extent, used⟩ := tracks.allocated live
  by_cases zero : bytes = 0
  · subst zero
    obtain ⟨changed, result, returned, outcome⟩ := tracks.represents.realloc_zero used
    refine ⟨changed, result, returned, fun refused => (refused.2 rfl).elim, fun _ => ?_⟩
    rcases outcome with ⟨null, new, served⟩ | ⟨positive, new, granted, served⟩
    · subst null
      rw [acquire_null]
      exact ⟨⟨new, tracks.drop served⟩, served.kept⟩
    · exact ⟨⟨new, tracks.rebind served positive (Nat.zero_le _)⟩, served.kept⟩
  · obtain ⟨changed, result, returned, outcome⟩ :=
      tracks.represents.realloc used (Nat.pos_of_ne_zero zero) fits
    have done (resized : Resized arch zone limit heap.memory changed blocks ptr
        (roundUpBlockSize arch bytes) result) : 0 < result ∧
        Advances arch zone limit heap blocks ptr
          ⟨changed, acquire (release heap.live ptr) result bytes⟩ := by
      have room := resized.request fits
      obtain ⟨positive, _, new, granted, enough, served⟩ := resized
      exact ⟨positive, ⟨new, tracks.rebind served positive (Nat.le_trans room enough)⟩, served.kept⟩
    refine ⟨changed, result, returned, ?_⟩
    cases outcome with
    | inPlace _ resized _ | relocated _ _ _ resized _ | merged _ _ _ _ _ resized _ =>
      exact ⟨fun refused => absurd refused.1 (done resized).1.ne', fun _ => (done resized).2⟩
    | refused => exact ⟨fun _ => tracks.idle, fun accepted => (accepted ⟨rfl, zero⟩).elim⟩

/-- Every call of the client's that has a block goes through, whatever the state of the zone. -/
theorem Tracks.serve (proper : Proper arch zone heap call) :
    ∃ next, Malloc.step arch zone heap call = some next ∧
      Advances arch zone limit heap blocks call.passed next := by
  obtain ⟨allowed, provided⟩ := proper
  cases call with
  | malloc bytes =>
    obtain ⟨changed, ptr, returned, advances⟩ := tracks.malloc allowed
    exact ⟨_, by simp [Malloc.step, returned], advances⟩
  | free ptr =>
    rcases allowed with null | live
    · subst null
      refine ⟨heap, ?_, tracks.idle⟩
      simp [Malloc.step, Malloc.free, tracks.release_null]
    · obtain ⟨extent, used⟩ := tracks.allocated live
      obtain ⟨changed, new, returned, served⟩ := tracks.represents.free used
      exact ⟨_, by simp [Malloc.step, returned], ⟨new, tracks.drop served⟩, served.kept⟩
  | realloc ptr bytes =>
    obtain ⟨source, fits⟩ := allowed
    rcases source with null | live
    · subst null
      obtain ⟨changed, result, returned, advances⟩ := tracks.malloc fits
      refine ⟨⟨changed, acquire heap.live result bytes⟩, ?_, advances⟩
      by_cases refused : result = 0 ∧ bytes ≠ 0
      · simp [Malloc.step, Malloc.realloc, returned, refused, acquire_null]
      · simp [Malloc.step, Malloc.realloc, returned, refused, tracks.release_null]
    · obtain ⟨changed, result, returned, kept, moved⟩ := tracks.realloc live fits
      by_cases refused : result = 0 ∧ bytes ≠ 0
      · exact ⟨_, by simp [Malloc.step, returned, refused], kept refused⟩
      · exact ⟨_, by simp [Malloc.step, returned, refused], moved refused⟩
  | memalign bytes alignment =>
    obtain ⟨fits, bounded, power⟩ := allowed
    obtain ⟨changed, ptr, returned, granted, _⟩ :=
      tracks.represents.memalign fits bounded power provided
    exact ⟨_, by simp [Malloc.step, returned], tracks.granted granted⟩
  | write ptr offset value =>
    obtain ⟨bytes, live, inside⟩ : ∃ bytes, heap.live ptr = some bytes ∧ offset < bytes := by
      simp only [Client] at allowed
      cases live : heap.live ptr with
      | none => simp [live] at allowed
      | some bytes => exact ⟨bytes, rfl, by simpa [live] using allowed⟩
    obtain ⟨extent, used, room⟩ := tracks.covered ptr bytes live
    have outside (x : Nat) (apart : x < ptr ∨ ptr + extent ≤ x) :
        storeByte heap.memory (ptr + offset) value x = heap.memory x := storeByte_other (by omega)
    refine ⟨_, rfl, ⟨blocks, ⟨tracks.represents.write used outside, tracks.represents.coalesced⟩,
      tracks.covered, tracks.owned⟩, fun payload size inUse different x low high => outside x ?_⟩
    rcases inUse_disjoint inUse used different with before | behind
    · exact .inl (by omega)
    · exact .inr (by omega)

theorem Tracks.proper (allowed : Allowed arch zone heap call) : Proper arch zone heap call :=
  allowed.proper tracks.represents

end

/-- A zone set up over an aligned buffer that has room for both headers and
whose end is an address. -/
structure Setup (arch : Arch) (memory : Memory) (vtable start bytes : Nat) (created : Memory)
    (zone : Nat) : Prop where
  success : create arch memory vtable start bytes = some (created, zone)
  aligned : start % 4 = 0
  room : sizeofZone arch + sizeofBlock arch ≤ bytes
  fits : start + bytes < arch.modulus

section
variable (success : create arch memory vtable start bytes = some (created, zone))
include success

theorem create_place :
    start ≠ 0 ∧ sizeofZone arch < bytes ∧
      zone = if start % 4 ≠ 0 then arch.add start (4 - start % 4) else start := by
  unfold create at success
  split at success
  · cases success
  · cases success
    exact ⟨by omega, by omega, rfl⟩

/-- What `create` leaves in memory: the zone refers to one free block right behind it. -/
theorem create_header (fits : zone + sizeofZone arch < arch.modulus) :
    head arch created zone = firstBlock arch zone ∧
      header arch created (firstBlock arch zone) =
        ⟨0, 0, arch.sub (arch.sub bytes (sizeofZone arch)) (sizeofBlock arch), false⟩ := by
  have width : sizeofZone arch = 2 * arch.wordBytes := rfl
  have small := arch.modulus_pos
  unfold create at success
  split at success
  · cases success
  · simp only [Option.some.injEq, Prod.mk.injEq] at success
    obtain ⟨memory_eq, place⟩ := success
    rw [place, Arch.add_of_lt fits] at memory_eq
    constructor
    · -- the writes to the first block are behind `head_`
      have own : ∀ x, x < zone + sizeofZone arch → created x =
          setHead arch (setHead arch (store memory zone arch.wordBytes vtable) zone 0) zone
            (zone + sizeofZone arch) x := by
        intro x low
        rw [← memory_eq, setInuse_outside (.inl low), setSize_outside (.inl low),
          setNext_outside (.inl low), setPrev_outside (.inl low)]
      have stored : head arch created zone = (zone + sizeofZone arch) % arch.modulus := by
        rw [head, load_congr (fun x low high => own x (by omega))]
        exact load_store_same
      rw [stored, Nat.mod_eq_of_lt fits]
      rfl
    · rw [← memory_eq, firstBlock, header_setInuse, header_setSize (arch.sub_lt _ _),
        header_setNext small, header_setPrev small]

theorem Setup.of_create (room : sizeofZone arch + sizeofBlock arch ≤ bytes)
    (fits : (start + 3) / 4 * 4 + bytes < arch.modulus) :
    Setup arch memory vtable zone bytes created zone := by
  have place : (if start % 4 ≠ 0 then arch.add start (4 - start % 4) else start) = (start + 3) / 4 * 4 := by
    split
    · rw [Arch.add_of_lt (by omega)]
      omega
    · omega
  have same : start = 0 ↔ (start + 3) / 4 * 4 = 0 := by omega
  -- `create` goes on from the next aligned address with the size it was given
  have moves : create arch memory vtable start bytes = create arch memory vtable ((start + 3) / 4 * 4) bytes := by
    rw [create, create, place, if_neg (by omega : ¬ (start + 3) / 4 * 4 % 4 ≠ 0)]
    simp only [same]
  rw [moves] at success
  obtain ⟨_, _, place⟩ := create_place success
  rw [if_neg (by omega : ¬ (start + 3) / 4 * 4 % 4 ≠ 0)] at place
  subst place
  exact ⟨success, by omega, room, fits⟩

end

/-- A fresh zone is one free block over everything behind the two headers. -/
theorem Setup.represents (setup : Setup arch memory vtable start bytes created zone) :
    Represents arch created zone (zone + bytes)
      [⟨bytes - sizeofZone arch - sizeofBlock arch, false⟩] := by
  obtain ⟨success, aligned, room, fits⟩ := setup
  have words := arch.wordBytes_cases
  have width : sizeofZone arch = 2 * arch.wordBytes := rfl
  have wide : sizeofBlock arch = 4 * arch.wordBytes := rfl
  obtain ⟨positive, _, place⟩ := create_place success
  rw [if_neg (not_not.mpr aligned)] at place
  obtain ⟨first, stored⟩ := create_header success (by omega)
  rw [Arch.sub_sub_of_le room (by omega)] at stored
  refine ⟨⟨by omega, by omega, by simp only [firstBlock]; omega, first, ⟨stored, trivial⟩, ?_, ?_⟩,
    List.isChain_singleton _⟩
  · simp only [firstBlock, span]
    omega
  · intro address member
    simp only [addresses, List.mem_singleton, firstBlock] at member
    omega

/-- The zone right after `create`, before any call. -/
def Heap.fresh (memory : Memory) : Heap := ⟨memory, fun _ => none⟩

section
variable (setup : Setup arch memory vtable start bytes created zone)
include setup

theorem Setup.tracks :
    Tracks arch zone (zone + bytes) (Heap.fresh created)
      [⟨bytes - sizeofZone arch - sizeofBlock arch, false⟩] where
  represents := setup.represents
  covered := by
    intro ptr size live
    simp [Heap.fresh] at live
  owned := by
    intro ptr extent used
    simp [Allocated, InUse] at used

/-- Whatever the client does, the zone survives and its pointers stay tracked. -/
theorem Setup.run_tracks {Good : Heap → Call → Prop}
    (proper : ∀ heap blocks call, Tracks arch zone (zone + bytes) heap blocks → Good heap call →
      Proper arch zone heap call)
    (legal : Legal (step arch zone) Good (Heap.fresh created) calls) :
    ∃ final, run (step arch zone) (Heap.fresh created) calls = some final ∧
      ∃ blocks, Tracks arch zone (zone + bytes) final blocks := by
  refine @run_invariant _ _ _ _ _ _ (fun heap => ∃ blocks, Tracks arch zone (zone + bytes) heap blocks)
    (fun heap call held good => ?_) legal ⟨_, setup.tracks⟩
  obtain ⟨blocks, tracks⟩ := held
  obtain ⟨next, stepped, advances⟩ := tracks.serve (proper heap blocks call tracks good)
  exact ⟨next, stepped, advances.tracks⟩

end

end FlapjackOS.Malloc
