import FlapjackOS.Paging.Permission

namespace FlapjackOS.Paging

open Frames Function Runs Simulation Custody

variable {arch : Arch} {frames : Nat} {state next : State arch frames}
  {space after : Space arch frames} {root : Nat} {pool : List Nat}
  {origin : Words arch} {page : PageIndex}
  {flags : ProtectionFlags} {addresses : List Nat} {initial : Finset Nat}
  {allocator : PageFrameAllocator frames} {changed : PageEntry arch}

/-- A call of `map_pages`. -/
structure Request where
  begin : Nat
  limit : Nat
  flags : ProtectionFlags
  deriving DecidableEq, Repr

namespace Request

def step (root : Nat) (state : State arch frames) (request : Request) : Option (State arch frames) :=
  mapPages root state request.begin request.limit request.flags

def call (request : Request) : Call := .mapPages request.begin request.limit request.flags

def pages (arch : Arch) (request : Request) : List PageIndex :=
  (visitedPages request.begin request.limit).map (locate arch)

end Request

/-- Every present entry refers to a frame that is in use and that its controller owns,
and no two of them to the same one. -/
structure FramesOwned (root : Nat) (state : State arch frames) : Prop where
  owned : ∀ page entry, Page arch page → state.getEntry root page = some entry →
    entry.isPresent = true → frameAddress entry.pte ≠ 0 ∧
      state.allocator.isFree (frameAddress entry.pte) = some false ∧
      entry.pageFrame = some { hasAllocator := true, pageFrame := frameAddress entry.pte }
  apart : ∀ page other first second, Page arch page → Page arch other →
    state.getEntry root page = some first → state.getEntry root other = some second →
    first.isPresent = true → second.isPresent = true →
    frameAddress first.pte = frameAddress second.pte → page = other

def State.isMapped (state : State arch frames) (root : Nat) (page : PageIndex) : Bool :=
  (state.getEntry root page).any PageEntry.isPresent

/-- The call ends, its page tables can be populated, and there is a frame except frame
zero for each of its pages that is not mapped yet. -/
structure Affordable (root : Nat) (state : State arch frames) (request : Request) : Prop where
  terminates : Terminates arch request.begin request.limit
  reaches : Populatable root state (request.pages arch)
  enough : ((request.pages arch).toFinset.filter (fun page => state.isMapped root page = false)).card ≤
    (state.allocator.freeFrames.erase 0).card

namespace Space

/-- The frame that the controller of a page is to give back. -/
def holds (space : Space arch frames) (page : PageIndex) : Option Nat :=
  (space.entryAt page).pageFrame.bind PageFrameController.frame

/-- The entry refers to frame `i`, which its controller has from the allocator. -/
structure Backed (entry : PageEntry arch) (i : Nat) : Prop where
  nonzero : 1 ≤ i
  pageFrame : entry.pageFrame = some { hasAllocator := true, pageFrame := i * pageSize }
  address : frameAddress entry.pte = i * pageSize

/-- All mapped pages have frames of their own. -/
structure Custodial (initial : Finset Nat) (space : Space arch frames) : Prop where
  sound : space.Sound
  accounted : Accounted initial space.allocator.freeFrames space.holds
  backed : ∀ page, (space.entryAt page).isPresent = true → ∃ i, Backed (space.entryAt page) i

theorem Backed.frame {entry : PageEntry arch} {i : Nat} (backed : Backed entry i) :
    entry.pageFrame.bind PageFrameController.frame = some i := by
  have nonzero : i * pageSize ≠ 0 := by
    have := backed.nonzero
    simp only [pageSize]
    omega
  simp [backed.pageFrame, PageFrameController.frame, nonzero, PageFrameAllocator.frame_index]

/-- The pages that are not mapped. -/
def absent (space : Space arch frames) (pages : List PageIndex) : Finset PageIndex :=
  pages.toFinset.filter (fun page => (space.entryAt page).isPresent = false)

/-- The number of frames that can be handed out. -/
def spare (space : Space arch frames) : Nat := (space.allocator.freeFrames.erase 0).card

theorem holds_put
    (enters : space.Enters page) :
    (space.put page writable changed allocator).holds =
      update space.holds page (changed.pageFrame.bind PageFrameController.frame) := by
  funext other
  rw [holds, entryAt_put enters]
  by_cases same : other = page
  · rw [same, update_self, update_self]
  · rw [update_of_ne same, update_of_ne same, holds]

/-- The entry of a page that is already mapped keeps its frame. -/
theorem Custodial.keep (custodial : space.Custodial initial)
    (enters : space.Enters page) (present : (space.entryAt page).isPresent = true)
    (kept : Kept flags (space.entryAt page) changed) :
    (space.put page flags.writable changed space.allocator).Custodial initial := by
  refine ⟨custodial.sound.put enters custodial.sound.valid (kept.tidy (custodial.sound.tidy page)),
    ?_, fun other here => ?_⟩
  · rw [holds_put enters, kept.pageFrame]
    have same : update space.holds page
        ((space.entryAt page).pageFrame.bind PageFrameController.frame) = space.holds :=
      update_eq_self page space.holds
    rw [same]
    exact custodial.accounted
  · rw [entryAt_put enters] at here ⊢
    by_cases same : other = page
    · rw [same, update_self]
      obtain ⟨i, backed⟩ := custodial.backed page present
      exact ⟨i, backed.nonzero, kept.pageFrame.trans backed.pageFrame,
        kept.address.trans backed.address⟩
    · rw [update_of_ne same] at here ⊢
      exact custodial.backed other here

/-- The entry of a page that is not mapped gets a frame. -/
theorem Custodial.take {i : Nat}
    (custodial : space.Custodial initial) (enters : space.Enters page)
    (missing : (space.entryAt page).isPresent = false) (valid : allocator.Valid arch)
    (small : pageSize * frames ≤ 2 ^ 52)
    (takes : PageEntry.Takes space.allocator.freeFrames allocator.freeFrames i)
    (mapped : PageEntry.Mapped flags { hasAllocator := true, pageFrame := i * pageSize } changed) :
    (space.put page flags.writable changed allocator).Custodial initial := by
  have inside : i < frames := PageFrameAllocator.lt_of_free takes.free
  have tidy : changed.Tidy frames := mapped.tidy fun _ => by
    rwa [PageFrameAllocator.frame_index]
  have representable : Representable arch (i * pageSize) := by
    have fits := custodial.sound.valid.fits
    have bound : i * pageSize < pageSize * frames := by
      rw [Nat.mul_comm]
      exact Nat.mul_lt_mul_of_pos_left inside (by decide)
    exact ⟨bound.trans fits, bound.trans_le small⟩
  have backed : Backed changed i := ⟨takes.low, mapped.pageFrame, mapped.address representable⟩
  have idle : space.holds page = none := by
    rw [holds, (custodial.sound.tidy page).absent missing]
    rfl
  refine ⟨custodial.sound.put enters valid tidy, ?_, fun other here => ?_⟩
  · rw [holds_put enters, backed.frame, allocator_put, takes.after]
    exact custodial.accounted.acquire idle takes.free
  · rw [entryAt_put enters] at here ⊢
    by_cases same : other = page
    · rw [same, update_self]
      exact ⟨i, backed⟩
    · rw [update_of_ne same] at here ⊢
      exact custodial.backed other here

section
variable {rest : List PageIndex} {linearAddress : Nat}

theorem absent_put
    (rest : List PageIndex) (enters : space.Enters page) (present : changed.isPresent = true) :
    (space.put page writable changed allocator).absent rest =
      (space.absent (page :: rest)).erase page := by
  ext other
  rw [absent, entryAt_put enters]
  by_cases same : other = page
  · simp [same, present]
  · simp [absent, same]

theorem spare_put (page : PageIndex) (writable : Bool) (changed : PageEntry arch) {i : Nat}
    (takes : PageEntry.Takes space.allocator.freeFrames allocator.freeFrames i) :
    (space.put page writable changed allocator).spare + 1 = space.spare := by
  have nonzero : i ≠ 0 := by
    have := takes.low
    omega
  have member : i ∈ space.allocator.freeFrames.erase 0 := Finset.mem_erase.mpr ⟨nonzero, takes.free⟩
  rw [spare, allocator_put, takes.after, Finset.erase_right_comm, spare,
    Finset.card_erase_add_one member]

/-- Either the page is mapped to a frame of its own, and the number of frames that are
missing or to spare stays the same, or there was none left. -/
theorem Custodial.fill (custodial : space.Custodial initial) (small : pageSize * frames ≤ 2 ^ 52)
    (flags : ProtectionFlags) (enters : space.Enters (locate arch linearAddress)) :
    ∃ after, space.mapPageInternal flags linearAddress = some after ∧
      after.pathOf = update space.pathOf (locate arch linearAddress).root
        (some (locate arch linearAddress).path) ∧
      ((after.Custodial initial ∧ ∀ rest,
        (space.absent (locate arch linearAddress :: rest)).card + after.spare =
          (after.absent rest).card + space.spare) ∨
      (space.spare = 0 ∧ (space.entryAt (locate arch linearAddress)).isPresent = false ∧
        (after.entryAt (locate arch linearAddress)).isPresent = true ∧
        frameAddress (after.entryAt (locate arch linearAddress)).pte = 0)) := by
  have filled : ∀ changed allocator,
      fillEntry flags space.allocator (space.entryAt (locate arch linearAddress)) =
        some (allocator, changed) → _ := fun _ _ used => mapPageInternal_eq enters used
  generalize locate arch linearAddress = page at enters filled ⊢
  cases here : (space.entryAt page).isPresent with
  | true =>
    obtain ⟨changed, used, kept⟩ := fillEntry_present space.allocator flags here
    refine ⟨_, filled _ _ used, pathOf_put, .inl ⟨custodial.keep enters here kept, fun rest => ?_⟩⟩
    have outside : page ∉ space.absent (page :: rest) := by simp [absent, here]
    rw [absent_put rest enters kept.present, Finset.erase_eq_of_notMem outside]
    rfl
  | false =>
    obtain ⟨allocator, changed, used, valid, ⟨i, takes, mapped⟩ | ⟨exhausted, _, mapped⟩⟩ :=
      PageEntry.setMappingFrom_eq flags custodial.sound.valid
        ((custodial.sound.tidy page).returned_absent here)
    all_goals rw [← fillEntry_absent flags here] at used
    · refine ⟨_, filled _ _ used, pathOf_put,
        .inl ⟨custodial.take enters here valid small takes mapped, fun rest => ?_⟩⟩
      have inside : page ∈ space.absent (page :: rest) := by simp [absent, here]
      have fewer := Finset.card_erase_add_one inside
      have taken := spare_put page flags.writable changed takes
      rw [absent_put rest enters mapped.present]
      omega
    · have zero : Representable arch 0 := ⟨Nat.zero_lt_of_lt custodial.sound.valid.fits, by decide⟩
      refine ⟨_, filled _ _ used, pathOf_put, .inr ⟨?_, rfl, ?_, ?_⟩⟩
      · rw [spare, Finset.card_eq_zero, Finset.eq_empty_iff_forall_notMem]
        intro i member
        obtain ⟨nonzero, free⟩ := Finset.mem_erase.mp member
        exact exhausted i (Nat.one_le_iff_ne_zero.mpr nonzero) free
      · rw [entryAt_put enters, update_self, mapped.present]
      · rw [entryAt_put enters, update_self, mapped.address zero]

theorem run_keeps (ran : run (Space.mapPageInternal flags) space addresses = some after)
    (present : (space.entryAt page).isPresent = true) :
    (after.entryAt page).isPresent = true ∧
      frameAddress (after.entryAt page).pte = frameAddress (space.entryAt page).pte := by
  induction addresses generalizing space with
  | nil =>
    cases ran
    exact ⟨present, rfl⟩
  | cons address addresses ih =>
    obtain ⟨middle, mapped, ran⟩ := Option.bind_eq_some_iff.mp ran
    have kept : (middle.entryAt page).isPresent = true ∧
        frameAddress (middle.entryAt page).pte = frameAddress (space.entryAt page).pte := by
      rw [Space.mapPageInternal, map_eq] at mapped
      split at mapped
      · next enters =>
        obtain ⟨⟨allocator, changed⟩, used, rfl⟩ := Option.map_eq_some_iff.mp mapped
        rw [entryAt_put enters]
        by_cases same : page = locate arch address
        · rw [same] at present ⊢
          obtain ⟨other, result, kept⟩ := fillEntry_present space.allocator flags present
          cases used.symm.trans result
          rw [update_self]
          exact ⟨kept.present, kept.address⟩
        · rw [update_of_ne same]
          exact ⟨present, rfl⟩
      · cases mapped
    obtain ⟨still, address⟩ := ih ran kept.1
    exact ⟨still, address.trans kept.2⟩

/-- The loop of `map_pages`: all pages get a frame, or one of them gets frame zero. -/
theorem Custodial.run (custodial : space.Custodial initial) (small : pageSize * frames ≤ 2 ^ 52)
    (flags : ProtectionFlags) (consistent : space.Consistent (addresses.map (locate arch))) :
    ∃ after, Runs.run (Space.mapPageInternal flags) space addresses = some after ∧
      (((space.absent (addresses.map (locate arch))).card ≤ space.spare ∧ after.Custodial initial) ∨
      (space.spare < (space.absent (addresses.map (locate arch))).card ∧
        ∃ page ∈ addresses.map (locate arch), (after.entryAt page).isPresent = true ∧
          frameAddress (after.entryAt page).pte = 0)) := by
  induction addresses generalizing space with
  | nil => exact ⟨space, rfl, .inl ⟨Nat.zero_le _, custodial⟩⟩
  | cons address addresses ih =>
    obtain ⟨middle, mapped, paths, ⟨kept, balance⟩ | ⟨exhausted, missing, present, zero⟩⟩ :=
      custodial.fill small flags (consistent _ List.mem_cons_self).1
    · have balance := balance (addresses.map (locate arch))
      rw [← List.map_cons] at balance
      obtain ⟨after, ran, ⟨enough, result⟩ | ⟨short, page, member, bad⟩⟩ := ih kept (consistent.tail paths)
      · exact ⟨after, by simp [Runs.run, mapped, ran], .inl ⟨by omega, result⟩⟩
      · refine ⟨after, by simp [Runs.run, mapped, ran], .inr ⟨by omega, page, ?_, bad⟩⟩
        exact List.mem_cons_of_mem _ member
    · obtain ⟨filledMiddle, again, _, filled⟩ :=
        custodial.sound.mapPageInternal flags (consistent _ List.mem_cons_self).1
      cases mapped.symm.trans again
      obtain ⟨after, ran, _⟩ := filled.sound.run_mapPageInternal flags (consistent.tail paths)
      obtain ⟨still, same⟩ := run_keeps ran present
      refine ⟨after, by simp [Runs.run, mapped, ran], .inr ⟨?_, _, List.mem_cons_self, still,
        same.trans zero⟩⟩
      rw [exhausted, Finset.card_pos]
      exact ⟨locate arch address, by simp [absent, missing]⟩

end

end Space

theorem Stands.isMapped (stands : Stands root pool origin state space)
    (deep : page.path.length + 1 = depth arch) :
    state.isMapped root page = (space.entryAt page).isPresent := by
  rw [State.isMapped, stands.getEntry deep, Space.getEntry_eq]
  by_cases reached : space.pathOf page.root = some page.path
  · rw [if_pos reached, Option.any_some]
  · rw [if_neg reached, Space.entryAt, if_neg reached, isPresent_blank, Option.any_none]

theorem Stands.affordable_iff (stands : Stands root pool origin state space) (request : Request) :
    Affordable root state request ↔ Terminates arch request.begin request.limit ∧
      space.Consistent (request.pages arch) ∧ (space.absent (request.pages arch)).card ≤ space.spare := by
  have deep := map_locate_deep arch (visitedPages request.begin request.limit)
  have missing : (request.pages arch).toFinset.filter (fun page => state.isMapped root page = false) =
      space.absent (request.pages arch) := by
    refine Finset.filter_congr fun page member => ?_
    rw [stands.isMapped (deep page (List.mem_toFinset.mp member))]
  have reachable := stands.populatable_iff deep
  constructor
  · rintro ⟨terminates, reaches, enough⟩
    rw [missing, stands.allocator] at enough
    exact ⟨terminates, reachable.mp reaches, enough⟩
  · rintro ⟨terminates, consistent, enough⟩
    refine ⟨terminates, reachable.mpr consistent, ?_⟩
    rw [missing, stands.allocator]
    exact enough

/-- Where all mapped pages have frames of their own the entries refer to them. -/
theorem Stands.framesOwned (stands : Stands root pool origin state space)
    (custodial : space.Custodial initial) : FramesOwned root state := by
  have entries : ∀ page entry, Page arch page → state.getEntry root page = some entry →
      entry.isPresent = true → entry = space.entryAt page ∧ ∃ i, Space.Backed entry i := by
    intro page entry isPage found present
    rw [stands.getEntry isPage.deep, Space.getEntry_eq] at found
    split at found
    · obtain rfl := Option.some.inj found
      exact ⟨rfl, custodial.backed page present⟩
    · cases found
  have holding : ∀ page entry i, entry = space.entryAt page → Space.Backed entry i →
      space.holds page = some i := by
    rintro page _ i rfl backed
    exact backed.frame
  refine ⟨fun page entry isPage found present => ?_,
    fun page other first second isPage isOther found foundOther present presentOther same => ?_⟩
  · obtain ⟨here, i, backed⟩ := entries page entry isPage found present
    have held := holding page entry i here backed
    have used : i ∉ space.allocator.freeFrames := fun free =>
      ((custodial.accounted.free_iff i).mp free).2 ⟨page, held⟩
    refine ⟨?_, ?_, ?_⟩
    · have := backed.nonzero
      rw [backed.address]
      simp only [pageSize]
      omega
    · rw [PageFrameAllocator.isFree_eq, backed.address, PageFrameAllocator.frame_index, stands.allocator]
      simp [used]
    · rw [backed.pageFrame, backed.address]
  · obtain ⟨here, i, backed⟩ := entries page first isPage found present
    obtain ⟨there, j, backedOther⟩ := entries other second isOther foundOther presentOther
    rw [backed.address, backedOther.address] at same
    have equal : i = j := Nat.eq_of_mul_eq_mul_right (by decide) same
    subst equal
    exact custodial.accounted.exclusive _ _ _ (holding page first i here backed)
      (holding other second i there backedOther)

section
variable {requests : List Request} {request : Request}

/-- The state stands for a space in which all mapped pages have frames of their own. -/
def Funded (root : Nat) (pool : List Nat) (origin : Words arch) (initial : Finset Nat)
    (state : State arch frames) : Prop :=
  ∃ space, Stands root pool origin state space ∧ space.Custodial initial

theorem Request.space_step (proper : request.call.Proper arch)
    (terminates : Terminates arch request.begin request.limit) :
    space.step request.call = run (Space.mapPageInternal request.flags) space
      (visitedPages request.begin request.limit) := by
  obtain ⟨⟨small, _⟩, asserted⟩ := proper
  exact (if_pos asserted).trans ((forPages_eq small).trans (if_pos terminates))

section
variable (funded : Funded root pool origin initial state) (setup : Setup arch root pool)
  (small : pageSize * frames ≤ 2 ^ 52)
include funded setup small

theorem Funded.step (proper : request.call.Proper arch)
    (affordable : Affordable root state request) :
    ∃ next, request.step root state = some next ∧ Funded root pool origin initial next := by
  obtain ⟨space, stands, custodial⟩ := funded
  obtain ⟨terminates, consistent, enough⟩ := (stands.affordable_iff request).mp affordable
  obtain ⟨after, ran, ⟨_, result⟩ | ⟨short, _⟩⟩ := custodial.run small request.flags consistent
  · have related := stands.step setup proper.1
    rw [Request.space_step proper terminates, ran] at related
    obtain ⟨next, stepped, standsNext⟩ := rel_some_right related
    exact ⟨next, stepped, after, standsNext, result⟩
  · exact absurd enough (Nat.not_le_of_lt short)

theorem Funded.violation (proper : request.call.Proper arch) (denied : ¬ Affordable root state request)
    (stepped : request.step root state = some next) : ¬ FramesOwned root next := by
  obtain ⟨space, stands, custodial⟩ := funded
  have related : Option.Rel (Stands root pool origin) (request.step root state)
      (space.step request.call) := stands.step setup proper.1
  rw [stepped] at related
  obtain ⟨after, spaceStepped, standsNext⟩ := rel_some_left related
  obtain ⟨terminates, consistent⟩ := Space.passable_of_step proper spaceStepped
  rw [Request.space_step proper terminates] at spaceStepped
  obtain ⟨other, ran, ⟨enough, _⟩ | ⟨_, page, member, present, zero⟩⟩ :=
    custodial.run small request.flags consistent
  · exact absurd ((stands.affordable_iff request).mpr ⟨terminates, consistent, enough⟩) denied
  · cases spaceStepped.symm.trans ran
    obtain ⟨address, visited, rfl⟩ := List.mem_map.mp member
    have isPage : Page arch (locate arch address) :=
      ⟨address, (mem_visitedPages.mp visited).2.1.trans proper.1.2, rfl⟩
    have found : next.getEntry root (locate arch address) =
        some (after.entryAt (locate arch address)) := by
      rw [standsNext.getEntry isPage.deep, Space.getEntry_eq, if_pos ((Space.run_paths ran).2 _ member)]
    intro owned
    exact (owned.owned _ _ isPage found present).1 zero

end

theorem mapPages_framesOwned_iff (setup : Setup arch root pool) (start : Start arch root pool state)
    (small : pageSize * frames ≤ 2 ^ 52) (proper : ∀ request ∈ requests, request.call.Proper arch) :
    Always (Request.step root) (FramesOwned root) state requests ↔
      Legal (Request.step root) (Affordable root) state requests := by
  have possible : Legal (Request.step root) (fun _ request => request.call.Proper arch) state requests :=
    legal_of_forall proper
  have funded : Funded root pool state.words state.allocator.freeFrames state :=
    ⟨_, start.stands setup, start.sound, .start fun _ => rfl,
      fun page present => by cases isPresent_blank.symm.trans present⟩
  refine always_iff_legal ?_ ?_ ?_ possible funded
  · rintro state ⟨space, stands, custodial⟩
    exact stands.framesOwned custodial
  · intro state request funded proper affordable
    exact funded.step setup small proper affordable
  · intro state request next funded proper denied stepped
    exact funded.violation setup small proper denied stepped

section

open PageFrameAllocator (sampleAllocator)

/-- Nine frames are free, and two pages are mapped. -/
theorem mapPages_framesOwned_sample :
    Always (Request.step (sampleRoot .i386)) (FramesOwned (sampleRoot .i386))
      (sampleState .i386 sampleAllocator) [{ begin := 0x1000, limit := 0x3000, flags := 2 }] := by
  refine (mapPages_framesOwned_iff (sample_setup .i386) sample_start (by decide) ?_).mpr
    ⟨⟨by decide, sample_populatable _ _, ?_⟩, fun _ _ => trivial⟩
  · decide
  · decide +kernel

/-- The entry of a page that is mapped when no frame is free. -/
def unfunded (arch : Arch) : Option (Bool × Nat) := do
  let state ← Request.step (sampleRoot arch) (sampleState arch (PageFrameAllocator.construct 10))
    { begin := 0x1000, limit := 0x2000, flags := 2 }
  let entry ← state.getEntry (sampleRoot arch) (locate arch 0x1000)
  return (entry.isPresent, frameAddress entry.pte)

theorem exhaustion_maps_frame_zero :
    unfunded .i386 = some (true, 0) ∧ unfunded .x86_64 = some (true, 0) := by
  decide +kernel

end

end

end FlapjackOS.Paging
