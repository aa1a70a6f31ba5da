import FlapjackOS.Frames.Allocation
import FlapjackOS.Machine.Custody

namespace FlapjackOS.Frames

open Runs Custody Function

/-- `hasAllocator` says that `allocator_` is not the null pointer. -/
structure PageFrameController where
  hasAllocator : Bool
  pageFrame : Nat
  deriving DecidableEq, Repr

namespace PageFrameController

variable {frames : Nat}

/-- The controller without an allocator and without a frame. -/
def null : PageFrameController := { hasAllocator := false, pageFrame := 0 }

/-- The controller of a frame that is not managed by the allocator. -/
def ofPageFrame (pageFrame : Nat) : PageFrameController := { hasAllocator := false, pageFrame }

/-- The controller of a frame from the allocator, or of none if there is none left. -/
def ofAllocator (arch : Arch) (allocator : PageFrameAllocator frames) :
    Option (PageFrameAllocator frames × PageFrameController) := do
  let (allocator, pageFrame) ← allocator.allocate arch pageSize
  return (allocator, { hasAllocator := true, pageFrame })

/-- `release`, which keeps `allocator_`. -/
def release (arch : Arch) (allocator : PageFrameAllocator frames)
    (controller : PageFrameController) :
    Option (PageFrameAllocator frames × PageFrameController) := do
  let released := { controller with pageFrame := 0 }
  if controller.hasAllocator then
    let allocator ← allocator.deallocate arch controller.pageFrame
    return (allocator, released)
  else return (allocator, released)

/-- The index of the frame that the controller is to give back. -/
def frame (controller : PageFrameController) : Option Nat :=
  if controller.hasAllocator = true ∧ controller.pageFrame ≠ 0 then
    some (controller.pageFrame / pageSize)
  else none

end PageFrameController

/-- The objects that are alive, the allocator, and the frames that calls of the
allocator have handed out and taken back so far. -/
structure World (frames : Nat) where
  allocator : PageFrameAllocator frames
  controllers : Nat → Option PageFrameController
  obtained : List Nat
  deallocated : List Nat

namespace World

variable {frames : Nat} {arch : Arch} {initial : PageFrameAllocator frames}
  {world after : World frames} {controller : PageFrameController} {object source : Nat}

/-- Nothing has happened yet. -/
def start (allocator : PageFrameAllocator frames) : World frames where
  allocator
  controllers _ := none
  obtained := []
  deallocated := []

def put (world : World frames) (object : Nat) (controller : Option PageFrameController) :
    World frames :=
  { world with controllers := update world.controllers object controller }

/-- `PageFrameController::release` with a record of the call of the allocator. -/
def release (arch : Arch) (world : World frames) (controller : PageFrameController) :
    Option (World frames × PageFrameController) := do
  let (allocator, released) ← controller.release arch world.allocator
  let deallocated := if controller.hasAllocator
    then controller.pageFrame / pageSize :: world.deallocated else world.deallocated
  return ({ world with allocator, deallocated }, released)

/-- What a program does with its controllers. An action names the objects it is about. -/
inductive Action where
  | constructDefault (object : Nat)
  | constructFrame (object pageFrame : Nat)
  | constructAllocate (object : Nat)
  | moveConstruct (object source : Nat)
  | moveAssign (object source : Nat)
  | destroy (object : Nat)
  deriving DecidableEq, Repr

/-- The objects that an action needs are alive, and the one it constructs is not. -/
def Possible (world : World frames) : Action → Prop
  | .constructDefault object | .constructFrame object _ | .constructAllocate object =>
    world.controllers object = none
  | .moveConstruct object source =>
    world.controllers object = none ∧ world.controllers source ≠ none
  | .moveAssign object source =>
    world.controllers object ≠ none ∧ world.controllers source ≠ none
  | .destroy object => world.controllers object ≠ none

instance (action : Action) : Decidable (Possible world action) :=
  match action with
  | .constructDefault _ | .constructFrame _ _ | .constructAllocate _ =>
    inferInstanceAs (Decidable (_ = _))
  | .moveConstruct _ _ | .moveAssign _ _ => inferInstanceAs (Decidable (_ ∧ _))
  | .destroy _ => inferInstanceAs (Decidable (_ ≠ _))

def step (arch : Arch) (world : World frames) : Action → Option (World frames)
  | .constructDefault object => some (world.put object (some .null))
  | .constructFrame object pageFrame => some (world.put object (some (.ofPageFrame pageFrame)))
  | .constructAllocate object => do
    let (allocator, this) ← PageFrameController.ofAllocator arch world.allocator
    let obtained :=
      if this.pageFrame = 0 then world.obtained else this.pageFrame / pageSize :: world.obtained
    return { world with allocator, obtained }.put object (some this)
  | .moveConstruct object source => do
    -- both fields of the new object, which are null, are swapped with the source's
    let other ← world.controllers source
    return (world.put object (some other)).put source (some .null)
  | .moveAssign object source => do
    let this ← world.controllers object
    let other ← world.controllers source
    if object = source then return world
    let (world, this) ← world.release arch this
    return (world.put object (some other)).put source (some this)
  | .destroy object => do
    let this ← world.controllers object
    let (world, _) ← world.release arch this
    return world.put object none

/-- The frame that a live object is to give back. -/
def holds (world : World frames) (object : Nat) : Option Nat :=
  (world.controllers object).bind PageFrameController.frame

/-- The frames in use are those that were in use initially and those held by live
controllers; a frame has one holder, has been given back once for every time it was
obtained unless it is still held, and nobody gives back frame zero. -/
structure Owned (initial : PageFrameAllocator frames) (world : World frames) : Prop where
  used : ∀ i, i < frames →
    (i ∉ world.allocator.freeFrames ↔ i ∉ initial.freeFrames ∨ Held world.holds i)
  exclusive : Exclusive world.holds
  balanced : Balanced world.holds world.obtained world.deallocated
  reserved : 0 ∉ world.deallocated

/-- The action does not release a controller that has an allocator but no frame. -/
def ReleasesFrame (world : World frames) : Action → Prop
  | .moveAssign object source =>
    object ≠ source → world.controllers object ≠ some { hasAllocator := true, pageFrame := 0 }
  | .destroy object => world.controllers object ≠ some { hasAllocator := true, pageFrame := 0 }
  | _ => True

instance (action : Action) : Decidable (ReleasesFrame world action) :=
  match action with
  | .moveAssign _ _ => inferInstanceAs (Decidable (_ → _))
  | .destroy _ => inferInstanceAs (Decidable (_ ≠ _))
  | .constructDefault _ | .constructFrame _ _ | .constructAllocate _ | .moveConstruct _ _ =>
    inferInstanceAs (Decidable True)

/-- The invariant that the actions preserve, for the objects' holdings. -/
structure Tracks (arch : Arch) (initial : PageFrameAllocator frames) (world : World frames)
    (holdings : Nat → Option Nat) : Prop where
  valid : world.allocator.Valid arch
  accounted : Accounted initial.freeFrames world.allocator.freeFrames holdings
  balanced : Balanced holdings world.obtained world.deallocated
  nonzero : ∀ i, Held holdings i → i ≠ 0
  reserved : 0 ∉ world.deallocated

theorem Tracks.owned (tracks : Tracks arch initial world world.holds) : Owned initial world where
  used i inside := by
    rw [tracks.accounted.free_iff]
    tauto
  exclusive := tracks.accounted.exclusive
  balanced := tracks.balanced
  reserved := tracks.reserved

theorem tracks_start (valid : initial.Valid arch) :
    Tracks arch initial (start initial) (start initial).holds := by
  have nothing : ∀ i, ¬ Held (start initial).holds i := by
    rintro i ⟨object, held⟩
    cases held
  exact ⟨valid, .start (fun _ => rfl), ⟨fun i held => absurd held (nothing i), fun _ _ => rfl⟩,
    fun i held => absurd held (nothing i), List.not_mem_nil⟩

theorem holds_put :
    (world.put object changed).holds = update world.holds object (changed.bind (·.frame)) := by
  funext other
  by_cases same : other = object
  · subst same
    simp [World.holds, put]
  · simp [World.holds, put, same]

section
variable (tracks : Tracks arch initial world holdings)
include tracks

theorem Tracks.put : Tracks arch initial (world.put object changed) holdings :=
  ⟨tracks.valid, tracks.accounted, tracks.balanced, tracks.nonzero, tracks.reserved⟩

theorem Tracks.transfer (apart : source ≠ object) (idle : holdings object = none) :
    Tracks arch initial world (transfer holdings source object) where
  valid := tracks.valid
  accounted := tracks.accounted.transfer apart idle
  balanced := tracks.balanced.transfer apart idle
  nonzero i held := tracks.nonzero i ((held_transfer apart idle).mp held)
  reserved := tracks.reserved

/-- Construction from the allocator, whether or not there is a frame left. -/
theorem Tracks.obtain (idle : holdings object = none) :
    ∃ allocator pageFrame,
      PageFrameController.ofAllocator arch world.allocator = some (allocator, ⟨true, pageFrame⟩) ∧
      Tracks arch initial
        { world with
          allocator
          obtained := if pageFrame = 0 then world.obtained else pageFrame / pageSize :: world.obtained }
        (update holdings object (PageFrameController.mk true pageFrame).frame) := by
  rcases tracks.valid.allocatePage with
    ⟨i, allocator, low, free, _, result, valid, taken⟩ | ⟨_, result⟩
  · have nonzero : i * pageSize ≠ 0 := by
      simp only [pageSize]
      omega
    have unheld := ((tracks.accounted.free_iff i).mp free).2
    refine ⟨allocator, i * pageSize, by simp [PageFrameController.ofAllocator, result], ?_⟩
    simp only [PageFrameController.frame, nonzero, ne_eq, not_false_eq_true, and_self, if_true,
      if_false, PageFrameAllocator.frame_index]
    refine ⟨valid, ?_, tracks.balanced.acquire idle unheld, fun j held => ?_, tracks.reserved⟩
    · rw [taken]
      exact tracks.accounted.acquire idle free
    · rcases (held_acquire idle).mp held with rfl | earlier
      · omega
      · exact tracks.nonzero j earlier
  · refine ⟨world.allocator, 0, by simp [PageFrameController.ofAllocator, result], ?_⟩
    have unchanged : update holdings object (PageFrameController.mk true 0).frame = holdings := by
      rw [update_eq_self_iff, idle]
      rfl
    rw [unchanged]
    exact tracks

theorem Tracks.release (owned : holdings object = controller.frame)
    (frameful : controller ≠ { hasAllocator := true, pageFrame := 0 }) :
    ∃ after, world.release arch controller = some (after, { controller with pageFrame := 0 }) ∧
      after.holds = world.holds ∧ Tracks arch initial after (update holdings object none) := by
  obtain ⟨hasAllocator, pageFrame⟩ := controller
  cases hasAllocator with
  | false =>
    refine ⟨world, rfl, rfl, ?_⟩
    have unchanged : update holdings object none = holdings := by
      rw [update_eq_self_iff, owned]
      rfl
    rw [unchanged]
    exact tracks
  | true =>
    have nonzero : pageFrame ≠ 0 := by
      rintro rfl
      exact frameful rfl
    have holding : holdings object = some (pageFrame / pageSize) := by
      simp [owned, PageFrameController.frame, nonzero]
    have inside := PageFrameAllocator.lt_of_free
      (tracks.accounted.held_initial _ ⟨object, holding⟩)
    obtain ⟨allocator, result, valid, returned⟩ := tracks.valid.deallocate inside
    have returns : world.release arch { hasAllocator := true, pageFrame } =
        some ({ world with allocator, deallocated := pageFrame / pageSize :: world.deallocated },
          { hasAllocator := true, pageFrame := 0 }) := by
      simp [World.release, PageFrameController.release, result]
    refine ⟨_, returns, rfl, valid, ?_, ?_, fun i held => ?_, ?_⟩
    · rw [returned]
      exact tracks.accounted.release holding
    · exact tracks.balanced.release tracks.accounted.exclusive holding
    · exact tracks.nonzero i ((held_release tracks.accounted.exclusive holding).mp held).2
    · have different := tracks.nonzero _ ⟨object, holding⟩
      simp [tracks.reserved, Ne.symm different]

end

/-- Releasing a controller without a frame gives back frame zero. -/
theorem release_null (released : world.release arch { hasAllocator := true, pageFrame := 0 } =
    some (after, controller)) : 0 ∈ after.deallocated := by
  obtain ⟨⟨allocator, emptied⟩, _, result⟩ := Option.bind_eq_some_iff.mp released
  cases result
  simp

theorem Tracks.step (tracks : Tracks arch initial world world.holds)
    (possible : Possible world action) (releases : ReleasesFrame world action) :
    ∃ after, World.step arch world action = some after ∧
      Tracks arch initial after after.holds := by
  have idle : ∀ object, world.controllers object = none → world.holds object = none := by
    intro object dead
    simp [World.holds, dead]
  cases action with
  | constructDefault object | constructFrame object pageFrame =>
    refine ⟨_, rfl, ?_⟩
    rw [holds_put, update_eq_self_iff.mpr (idle object possible).symm]
    exact tracks.put
  | constructAllocate object =>
    obtain ⟨allocator, pageFrame, result, obtained⟩ := tracks.obtain (idle object possible)
    refine ⟨_, by rw [World.step, result]; rfl, ?_⟩
    rw [holds_put]
    exact obtained.put
  | moveConstruct object source =>
    obtain ⟨dead, live⟩ := possible
    obtain ⟨other, found⟩ := Option.ne_none_iff_exists'.mp live
    have apart : source ≠ object := by
      rintro rfl
      exact live dead
    refine ⟨_, by rw [World.step, found]; rfl, ?_⟩
    have moved := tracks.transfer apart (idle object dead)
    have holding : world.holds source = other.frame := by simp [World.holds, found]
    rw [holds_put, holds_put]
    rw [Custody.transfer, holding] at moved
    exact moved.put.put
  | moveAssign object source =>
    obtain ⟨live, alive⟩ := possible
    obtain ⟨this, found⟩ := Option.ne_none_iff_exists'.mp live
    obtain ⟨other, foundOther⟩ := Option.ne_none_iff_exists'.mp alive
    by_cases same : object = source
    · exact ⟨world, by simp [World.step, foundOther, same], tracks⟩
    · have frameful : this ≠ { hasAllocator := true, pageFrame := 0 } := by
        rintro rfl
        exact releases same found
      have owned : world.holds object = this.frame := by simp [World.holds, found]
      obtain ⟨after, released, kept, result⟩ := tracks.release owned frameful
      refine ⟨(after.put object (some other)).put source (some { this with pageFrame := 0 }),
        by simp [World.step, found, foundOther, same, released], ?_⟩
      have apart : source ≠ object := Ne.symm same
      have moved := result.transfer apart (update_self ..)
      have holding : update world.holds object none source = other.frame := by
        simp [update_of_ne apart, World.holds, foundOther]
      rw [holds_put, holds_put, kept]
      rw [Custody.transfer, holding, update_idem] at moved
      have empty : (PageFrameController.mk this.hasAllocator 0).frame = none := by
        simp [PageFrameController.frame]
      simp only [Option.bind_some, empty]
      exact moved.put.put
  | destroy object =>
    obtain ⟨this, found⟩ := Option.ne_none_iff_exists'.mp possible
    have frameful : this ≠ { hasAllocator := true, pageFrame := 0 } := by
      rintro rfl
      exact releases found
    have owned : world.holds object = this.frame := by simp [World.holds, found]
    obtain ⟨after, released, kept, result⟩ := tracks.release owned frameful
    refine ⟨after.put object none, by simp [World.step, found, released], ?_⟩
    rw [holds_put, kept]
    exact result.put

/-- A program keeps the ownership of frames exactly as long as it never releases a
controller that has an allocator but no frame. -/
theorem frames_owned_iff (valid : initial.Valid arch)
    (possible : Legal (World.step arch) Possible (start initial) actions) :
    Always (World.step arch) (Owned initial) (start initial) actions ↔
      Legal (World.step arch) ReleasesFrame (start initial) actions := by
  refine always_iff_legal (fun _ => Tracks.owned)
    (fun _ _ tracks possible releases => tracks.step possible releases) ?_ possible (tracks_start valid)
  -- any other release gives back frame zero
  intro world action after _ possible violates stepped owned
  apply owned.reserved
  cases action with
  | moveAssign object source =>
    simp only [ReleasesFrame, ne_eq, Classical.not_imp, not_not] at violates
    obtain ⟨apart, found⟩ := violates
    obtain ⟨other, foundOther⟩ := Option.ne_none_iff_exists'.mp possible.2
    simp only [World.step, found, foundOther, apart, if_false, Option.bind_eq_bind,
      Option.bind_some] at stepped
    obtain ⟨⟨released, this⟩, result, rest⟩ := Option.bind_eq_some_iff.mp stepped
    cases rest
    exact (release_null result :)
  | destroy object =>
    simp only [ReleasesFrame, ne_eq, not_not] at violates
    simp only [World.step, violates, Option.bind_eq_bind, Option.bind_some] at stepped
    obtain ⟨⟨released, this⟩, result, rest⟩ := Option.bind_eq_some_iff.mp stepped
    cases rest
    exact (release_null result :)
  | constructDefault _ | constructFrame _ _ | constructAllocate _ | moveConstruct _ _ => exact absurd trivial violates

open PageFrameAllocator in
/-- Two frames are obtained and given back, one of them after it has been moved. -/
theorem frames_owned_sample :
    Always (World.step .i386) (Owned sampleAllocator) (start sampleAllocator)
      [.constructAllocate 1, .constructAllocate 2, .destroy 1, .moveConstruct 3 2, .destroy 3] :=
  (frames_owned_iff sampleAllocator_valid (by decide +kernel)).mpr (by decide +kernel)

def sampleMoves : List Action := [.constructAllocate 1, .constructAllocate 2, .moveAssign 1 2, .destroy 2]

open PageFrameAllocator in
/-- The object that has been moved from takes over the allocator of the object that
was assigned to. Its destruction gives back frame zero, which then counts as free,
and so does the destruction of an object whose construction found no free frame. -/
theorem moved_from_frees_frame_zero :
    (run (World.step .i386) (start sampleAllocator) sampleMoves).map
      (fun world => (world.deallocated, decide (0 ∈ world.allocator.freeFrames))) =
      some ([0, 1], true) ∧
    0 ∉ sampleAllocator.freeFrames ∧
    ¬ Always (World.step .i386) (Owned sampleAllocator) (start sampleAllocator) sampleMoves ∧
    (run (World.step .i386) (start (construct 10)) [.constructAllocate 1, .destroy 1]).map
      (fun world => (world.obtained, world.deallocated, decide (0 ∈ world.allocator.freeFrames))) =
      some ([], [0], true) := by
  have outcome : (run (World.step .i386) (start sampleAllocator) sampleMoves).map
      (fun world => (world.deallocated, decide (0 ∈ world.allocator.freeFrames))) =
      some ([0, 1], true) := by decide +kernel
  refine ⟨outcome, by decide, fun always => ?_, by decide +kernel⟩
  obtain ⟨final, ran, owned⟩ := always.run
  rw [ran, Option.map_some, Option.some.injEq, Prod.mk.injEq] at outcome
  have reserved := owned.reserved
  rw [outcome.1] at reserved
  simp at reserved

end World

end FlapjackOS.Frames
