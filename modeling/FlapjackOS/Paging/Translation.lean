import FlapjackOS.Paging.Ownership
import Mathlib.Data.Finset.Max

/-! The managed memory map of i386 as a partial map from pages to page frames. -/

namespace FlapjackOS.Paging

open Frames Function Runs Simulation

variable {frames : Nat} {state : State .i386 frames} {space after : Space .i386 frames}
  {root cr3 : Nat} {pool : List Nat} {origin : Words .i386} {page : PageIndex}
  {flags : ProtectionFlags} {linearAddress physicalAddress : Nat} {addresses : List Nat}

namespace I386.PagingResolver

def getPageDirectoryIndex (linearAddress : Nat) : Nat := linearAddress >>> 22

def getPageTableIndex (linearAddress : Nat) : Nat := linearAddress >>> 12 &&& 0x3FF

def getPageDirectory (cr3 : Nat) : Nat := convertPhysicalToLogicalAddress .i386 cr3

/-- `get_page_table`, or `none` for the null pointer. -/
def getPageTable (words : Words .i386) (cr3 linearAddress : Nat) : Option Nat :=
  let pd := getPageDirectory cr3
  if pd = 0 then none
  else
    let address := getTableAddress (words pd (getPageDirectoryIndex linearAddress))
    if address = 0 then none else some (convertPhysicalToLogicalAddress .i386 address)

/-- `get_page_table_entry`, or `none` for the null pointer. -/
def getPageTableEntry (words : Words .i386) (cr3 linearAddress : Nat) :
    Option (Word .i386) :=
  (getPageTable words cr3 linearAddress).bind fun pt =>
    if pt = 0 then none else some (words pt (getPageTableIndex linearAddress))

/-- The resolver and the controllers use the same indexes. -/
theorem getPageDirectoryIndex_eq (linearAddress : Nat) :
    getPageDirectoryIndex linearAddress = (locate .i386 linearAddress).root := rfl

/-- The physical address of the page, if the entry that the resolver finds is present. -/
def translatePage (words : Words .i386) (cr3 linearAddress : Nat) : Option Nat :=
  (getPageTableEntry words cr3 linearAddress).bind fun pte =>
    if isPresent pte then some (I386.PageTableEntry.getAddress pte) else none

end I386.PagingResolver

open I386.PagingResolver

/-- What a page is mapped to, and whether the frame is from the allocator. -/
structure Backing where
  physicalAddress : Nat
  allocated : Bool
  deriving DecidableEq, Repr

/-- A partial map from pages to frames, and the frames that are free. -/
structure PageMap where
  backing : PageIndex → Option Backing
  free : Finset Nat

namespace PageMap

/-- The frames that come back when the page is mapped to another one. -/
def returned : Option Backing → Finset Nat
  | some backing => if backing.allocated then {backing.physicalAddress / pageSize} else ∅
  | none => ∅

def mapPage (map : PageMap) (physicalAddress linearAddress : Nat) : PageMap :=
  let page := locate .i386 linearAddress
  { backing := update map.backing page (some { physicalAddress, allocated := false })
    free := map.free ∪ returned (map.backing page) }

/-- The lowest free frame except frame zero. -/
def lowest (free : Finset Nat) : Option Nat :=
  if left : (free.erase 0).Nonempty then some ((free.erase 0).min' left) else none

/-- Only a page that is not mapped gets a frame. -/
def fill (map : PageMap) (linearAddress : Nat) : Option PageMap :=
  let page := locate .i386 linearAddress
  match map.backing page with
  | some _ => some map
  | none => (lowest map.free).map fun i => {
      backing := update map.backing page (some { physicalAddress := i * pageSize, allocated := true })
      free := map.free.erase i }

/-- The calls on the partial map. There is none if the frames run out, or if a page
that is made read-only is not mapped. -/
def step (map : PageMap) (call : Call) : Option PageMap :=
  match call with
  | .mapPage physicalAddress linearAddress _ => some (map.mapPage physicalAddress linearAddress)
  | .mapPages begin limit _ => run fill map (visitedPages begin limit)
  | .setReadonly _ _ =>
    if ∀ page ∈ call.covered .i386, (map.backing page).isSome then some map else none

end PageMap

/-- The start of the kernel's part of the address space. -/
def kernelEntry : Nat := 768

/-- A call on user addresses that meets its preconditions. -/
def Call.User : Call → Prop
  | .mapPage physicalAddress linearAddress _ => physicalAddress ≠ 0 ∧
    physicalAddress % pageSize = 0 ∧ physicalAddress < Arch.modulus .i386 ∧
    linearAddress < kernelVirtualStart .i386
  | .mapPages begin limit _ =>
    begin % pageSize = 0 ∧ begin < limit ∧ limit ≤ kernelVirtualStart .i386
  | .setReadonly begin limit => begin < Arch.modulus .i386 ∧ limit ≤ kernelVirtualStart .i386

instance : (call : Call) → Decidable call.User
  | .mapPage _ _ _ => inferInstanceAs (Decidable (_ ∧ _))
  | .mapPages _ _ _ => inferInstanceAs (Decidable (_ ∧ _))
  | .setReadonly _ _ => inferInstanceAs (Decidable (_ ∧ _))

/-- The user entries of the page directory are zero, the kernel's page tables are none
of those that are going to be allocated, and CR3 refers to the page directory. -/
structure UserStart (cr3 root : Nat) (pool : List Nat) (words : Words .i386) : Prop where
  cr3 : getPageDirectory cr3 = root
  nonzero : root ≠ 0
  user : ∀ index, index < kernelEntry → words root index = 0
  kernel : ∀ index, kernelEntry ≤ index → index < entryCount .i386 →
    getTableAddress (words root index) ≠ 0 →
    let table := convertPhysicalToLogicalAddress .i386 (getTableAddress (words root index))
    table ≠ root ∧ table ∉ pool

/-- The hardware tables, the controllers and the allocator say what the partial map says,
and the kernel's part is as it was. -/
structure Refines (cr3 root : Nat) (origin : Words .i386) (state : State .i386 frames)
    (map : PageMap) : Prop where
  translation : ∀ linearAddress, linearAddress < kernelVirtualStart .i386 →
    translatePage state.words cr3 linearAddress =
      (map.backing (locate .i386 linearAddress)).map Backing.physicalAddress
  kernel : ∀ linearAddress, kernelVirtualStart .i386 ≤ linearAddress →
    linearAddress < Arch.modulus .i386 →
    translatePage state.words cr3 linearAddress = translatePage origin cr3 linearAddress
  entries : ∀ linearAddress, linearAddress < kernelVirtualStart .i386 →
    getPageTableEntry state.words cr3 linearAddress =
      (state.getEntry root (locate .i386 linearAddress)).map PageEntry.pte
  controllers : ∀ linearAddress, linearAddress < kernelVirtualStart .i386 →
    (state.getEntry root (locate .i386 linearAddress)).bind PageEntry.pageFrame =
      (map.backing (locate .i386 linearAddress)).map fun backing =>
        { hasAllocator := backing.allocated, pageFrame := backing.physicalAddress }
  free : state.allocator.freeFrames = map.free

section

/-- The entry of a page is as the partial map has it. -/
def Matches (entry : PageEntry .i386) : Option Backing → Prop
  | none => entry.isPresent = false
  | some backing => entry.isPresent = true ∧ frameAddress entry.pte = backing.physicalAddress ∧
    entry.pageFrame =
      some { hasAllocator := backing.allocated, pageFrame := backing.physicalAddress }

/-- The space has the entries that the partial map asks for, and no other table than
those of user pages. -/
structure Mirrors (space : Space .i386 frames) (map : PageMap) : Prop where
  sound : space.Sound
  free : space.allocator.freeFrames = map.free
  entries : ∀ page, Matches (space.entryAt page) (map.backing page)
  flat : ∀ index path, space.pathOf index = some path → path = []
  kernel : ∀ index, kernelEntry ≤ index → space.upper index = none

variable {map next : PageMap} {changed : PageEntry .i386} {call : Call}

theorem Mirrors.enters (mirrors : Mirrors space map) (linearAddress : Nat) :
    space.Enters (locate .i386 linearAddress) :=
  mirrors.flat _

theorem user_root (user : linearAddress < kernelVirtualStart .i386) :
    (locate .i386 linearAddress).root < kernelEntry := by
  have bound : linearAddress < 0xC0000000 := user
  simp only [locate, I386.getIndexOfPml2EntryByAddress, kernelEntry, Nat.shiftRight_eq_div_pow]
  omega

theorem Mirrors.put {allocator : PageFrameAllocator frames} {free : Finset Nat} {backing : Backing}
    {writable : Bool} (mirrors : Mirrors space map) (user : linearAddress < kernelVirtualStart .i386)
    (valid : allocator.Valid .i386) (tidy : changed.Tidy frames)
    (matched : Matches changed (some backing)) (same : allocator.freeFrames = free) :
    Mirrors (space.put (locate .i386 linearAddress) writable changed allocator)
      { backing := update map.backing (locate .i386 linearAddress) (some backing), free } where
  sound := mirrors.sound.put (mirrors.enters linearAddress) valid tidy
  free := same
  entries page := by
    rw [Space.entryAt_put (mirrors.enters linearAddress)]
    dsimp only
    by_cases here : page = locate .i386 linearAddress
    · rw [here, update_self, update_self]
      exact matched
    · rw [update_of_ne here, update_of_ne here]
      exact mirrors.entries page
  flat index path found := by
    rw [Space.pathOf_put] at found
    by_cases here : index = (locate .i386 linearAddress).root
    · rw [here, update_self] at found
      exact (Option.some.inj found).symm
    · rw [update_of_ne here] at found
      exact mirrors.flat index path found
  kernel index high := by
    have different : index ≠ (locate .i386 linearAddress).root := by
      have := user_root user
      omega
    rw [Space.upper_put, update_of_ne different]
    exact mirrors.kernel index high

theorem Matches.returned {entry : PageEntry .i386} (matched : Matches entry backing)
    (tidy : entry.Tidy frames) : entry.returned = PageMap.returned backing := by
  cases backing with
  | none => exact tidy.returned_absent matched
  | some backing =>
    rw [PageEntry.returned, matched.2.2]
    rfl

theorem matches_mapped {controller : PageFrameController}
    (mapped : PageEntry.Mapped flags controller changed)
    (representable : Representable .i386 controller.pageFrame) :
    Matches changed (some { physicalAddress := controller.pageFrame
                            allocated := controller.hasAllocator }) :=
  ⟨mapped.present, mapped.address representable, mapped.pageFrame⟩

theorem Mirrors.mapPage (mirrors : Mirrors space map) (flags : ProtectionFlags)
    (aligned : physicalAddress % pageSize = 0) (small : physicalAddress < Arch.modulus .i386)
    (user : linearAddress < kernelVirtualStart .i386) :
    ∃ after, space.mapPage physicalAddress linearAddress flags = some after ∧
      Mirrors after (map.mapPage physicalAddress linearAddress) := by
  have tidy := mirrors.sound.tidy (locate .i386 linearAddress)
  obtain ⟨allocator, changed, set, valid, free, mapped⟩ :=
    PageEntry.setMappingTo_eq flags mirrors.sound.valid tidy.releasable aligned
  have representable : Representable .i386 physicalAddress := ⟨small, small.trans (by decide)⟩
  refine ⟨space.put (locate .i386 linearAddress) flags.writable changed allocator, ?_,
    mirrors.put user valid (mapped.tidy fun has => by cases has) (matches_mapped mapped representable) ?_⟩
  · rw [Space.mapPage, Space.map_eq, if_pos (mirrors.enters linearAddress)]
    simp only [mapEntry, set, Option.map_some]
  · rw [free, mirrors.free, (mirrors.entries _).returned tidy]

theorem lowest_eq {free after : Finset Nat} {i : Nat} (takes : PageEntry.Takes free after i) :
    PageMap.lowest free = some i := by
  have nonzero : i ≠ 0 := by
    have := takes.low
    omega
  have member : i ∈ free.erase 0 := Finset.mem_erase.mpr ⟨nonzero, takes.free⟩
  have least : (free.erase 0).min' ⟨i, member⟩ = i := by
    refine le_antisymm (Finset.min'_le _ _ member) (Finset.le_min' _ _ _ fun j other => ?_)
    obtain ⟨positive, free⟩ := Finset.mem_erase.mp other
    by_contra smaller
    exact takes.lowest j (Nat.one_le_iff_ne_zero.mpr positive) (Nat.lt_of_not_le smaller) free
  rw [PageMap.lowest, dif_pos ⟨i, member⟩, least]

theorem Mirrors.fill (mirrors : Mirrors space map) (flags : ProtectionFlags)
    (user : linearAddress < kernelVirtualStart .i386) (filled : map.fill linearAddress = some next) :
    ∃ after, space.mapPageInternal flags linearAddress = some after ∧ Mirrors after next := by
  have tidy := mirrors.sound.tidy (locate .i386 linearAddress)
  have matched := mirrors.entries (locate .i386 linearAddress)
  unfold PageMap.fill at filled
  cases here : map.backing (locate .i386 linearAddress) with
  | some backing =>
    simp only [here, Option.some.injEq] at filled
    rw [here] at matched
    obtain ⟨changed, used, kept⟩ := fillEntry_present space.allocator flags matched.1
    refine ⟨_, Space.mapPageInternal_eq (mirrors.enters linearAddress) used, ?_⟩
    have unchanged : next = {
        backing := update map.backing (locate .i386 linearAddress) (some backing)
        free := map.free } := by
      rw [← filled, ← here, update_eq_self]
    rw [unchanged]
    refine mirrors.put user mirrors.sound.valid (kept.tidy tidy) ⟨kept.present, ?_, ?_⟩ mirrors.free
    · rw [kept.address, matched.2.1]
    · rw [kept.pageFrame, matched.2.2]
  | none =>
    simp only [here, Option.map_eq_some_iff] at filled
    rw [here] at matched
    obtain ⟨i, low, rfl⟩ := filled
    obtain ⟨allocator, changed, used, valid, ⟨j, takes, mapped⟩ | ⟨exhausted, _, _⟩⟩ :=
      PageEntry.setMappingFrom_eq flags mirrors.sound.valid (tidy.returned_absent matched)
    · rw [← fillEntry_absent flags matched] at used
      have inside : j < frames := PageFrameAllocator.lt_of_free takes.free
      have same : j = i := by
        rw [mirrors.free] at takes
        exact Option.some.inj ((lowest_eq takes).symm.trans low)
      subst same
      have bound : j * pageSize < Arch.modulus .i386 := by
        have fits := mirrors.sound.valid.fits
        rw [Nat.mul_comm] at fits
        exact (Nat.mul_lt_mul_of_pos_right inside (by decide)).trans fits
      refine ⟨_, Space.mapPageInternal_eq (mirrors.enters linearAddress) used, mirrors.put user valid
        (mapped.tidy fun _ => ?_)
        (matches_mapped mapped ⟨bound, bound.trans (by decide)⟩) ?_⟩
      · rwa [PageFrameAllocator.frame_index]
      · rw [takes.after, mirrors.free]
    · exfalso
      unfold PageMap.lowest at low
      split at low
      · next left =>
        obtain ⟨k, member⟩ := left
        obtain ⟨positive, free⟩ := Finset.mem_erase.mp member
        rw [← mirrors.free] at free
        exact exhausted k (Nat.one_le_iff_ne_zero.mpr positive) free
      · cases low

theorem Mirrors.locked {pages : List PageIndex} (mirrors : Mirrors space map)
    (locked : space.Locked pages after) : Mirrors after map where
  sound := locked.sound mirrors.sound
  free := by rw [locked.allocator, mirrors.free]
  entries page := by
    have matched := mirrors.entries page
    cases backing : map.backing page with
    | none =>
      rw [backing] at matched
      exact (locked.present page).trans matched
    | some backing =>
      rw [backing] at matched
      exact ⟨(locked.present page).trans matched.1, (locked.address page).trans matched.2.1,
        (locked.pageFrame page).trans matched.2.2⟩
  flat index path found := mirrors.flat index path (locked.pathOf ▸ found)
  kernel index high := by
    rw [locked.upper, mirrors.kernel index high, Option.map_none, ite_self]

theorem Mirrors.pathOf (mirrors : Mirrors space map) (mapped : (map.backing page).isSome) :
    space.pathOf page.root = some page.path := by
  obtain ⟨backing, found⟩ := Option.isSome_iff_exists.mp mapped
  have present := mirrors.entries page
  rw [found] at present
  by_contra missing
  have absent := present.1
  rw [Space.entryAt, if_neg missing, isPresent_blank] at absent
  cases absent

theorem Call.User.proper (user : call.User) : call.Proper .i386 := by
  have kernel : kernelVirtualStart .i386 < Arch.modulus .i386 := by decide
  cases call with
  | mapPage physicalAddress linearAddress flags =>
    exact ⟨⟨user.2.2.1, user.2.2.2.trans kernel⟩, user.2.1⟩
  | mapPages begin limit flags =>
    have bound := user.2.2.trans_lt kernel
    exact ⟨⟨user.2.1.trans bound, bound⟩, user.1, user.2.1⟩
  | setReadonly begin limit => exact ⟨⟨user.1, user.2.trans_lt kernel⟩, trivial⟩

theorem terminates_user {begin limit : Nat} (user : limit ≤ kernelVirtualStart .i386) :
    Terminates .i386 begin limit := by
  simp only [Terminates, kernelVirtualStart, Arch.modulus, Arch.wordBytes, pageSize] at user ⊢
  omega

/-- Each call on the partial map is one on the space. -/
theorem Mirrors.step (mirrors : Mirrors space map) (user : call.User)
    (stepped : map.step call = some next) :
    ∃ after, space.step call = some after ∧ Mirrors after next := by
  have proper := Call.User.proper user
  cases call with
  | mapPage physicalAddress linearAddress flags =>
    obtain rfl := Option.some.inj stepped
    exact mirrors.mapPage flags user.2.1 user.2.2.1 user.2.2.2
  | mapPages begin limit flags =>
    obtain ⟨aligned, nonempty, bound⟩ := user
    have below : ∀ address ∈ visitedPages begin limit, address < kernelVirtualStart .i386 :=
      fun address member => (mem_visitedPages.mp member).2.1.trans_le bound
    obtain ⟨after, ran, result⟩ := run_forward (fun _ _ address _ member related filled =>
      related.fill flags (below address member) filled) mirrors stepped
    refine ⟨after, ?_, result⟩
    rw [Space.step, if_pos ⟨aligned, nonempty⟩, forPages_eq proper.1.1, if_pos (terminates_user bound), ran]
  | setReadonly begin limit =>
    obtain ⟨_, bound⟩ := user
    simp only [PageMap.step] at stepped
    split at stepped
    · next mapped =>
      obtain rfl := Option.some.inj stepped
      have reaches : space.Reaches ((visitedPages begin limit).map (locate .i386)) := by
        intro page member
        obtain ⟨address, visited, rfl⟩ := List.mem_map.mp member
        obtain ⟨low, high, _⟩ := mem_visitedPages.mp visited
        exact mirrors.pathOf (mapped _ (Call.mem_coveredPages.mpr ⟨address, low, high, rfl⟩))
      obtain ⟨after, ran, locked⟩ := Space.run_setReadonlyPage reaches
      refine ⟨after, ?_, mirrors.locked locked⟩
      rw [Space.step, forPages_eq proper.1.1, if_pos (terminates_user bound), ran]
    · cases stepped

end

section
variable {map next : PageMap} {place : Nat → List Nat} {call : Call} {calls : List Call}

theorem Represents.getPageTableEntry_user (represents : Represents root pool origin place state space)
    (setup : Setup .i386 root pool) (start : UserStart cr3 root pool origin)
    (user : linearAddress < kernelVirtualStart .i386) :
    getPageTableEntry state.words cr3 linearAddress =
      (state.getEntry root (locate .i386 linearAddress)).map PageEntry.pte := by
  have index := user_root user
  simp only [getPageTableEntry, getPageTable, getPageDirectoryIndex_eq, start.cr3, start.nonzero, if_false,
    show getPageTableIndex linearAddress = (locate .i386 linearAddress).leaf from rfl,
    State.getEntry, show (locate .i386 linearAddress).path = [] from rfl, State.descend]
  generalize locate .i386 linearAddress = page at index
  cases found : space.regions page.root with
  | none =>
    obtain ⟨lower, word⟩ := represents.closed _ found
    have zero : getTableAddress (0 : Word .i386) = 0 := by decide
    simp only [word, start.user _ index, zero, if_true, lower, Option.bind_none, Option.map_none]
  | some region =>
    obtain ⟨below, rest, readwrite, leaf, placed, linked, stem, _⟩ :=
      (represents.opened _ region found).chain
    have good : KernelTable .i386 below := by
      refine setup.tables below (represents.placement.taken page.root below ?_).1
      rw [placed]
      exact List.mem_cons_self
    have low := good.low
    have nonzero : below - kernelVirtualStart .i386 ≠ 0 := by omega
    have pointer : below ≠ 0 := by omega
    simp only [linked.address, nonzero, if_false, good.logical, pointer, linked.lower, Option.bind_some,
      Option.map_some, State.entry]

theorem getPageTable_eq (start : UserStart cr3 root pool origin) (words : Words .i386) :
    getPageTable words cr3 linearAddress =
      if getTableAddress (words root (locate .i386 linearAddress).root) = 0 then none
      else some (convertPhysicalToLogicalAddress .i386
        (getTableAddress (words root (locate .i386 linearAddress).root))) := by
  simp only [getPageTable, getPageDirectoryIndex_eq, start.cr3, start.nonzero, if_false]

theorem Represents.getPageTableEntry_kernel (represents : Represents root pool origin place state space)
    (start : UserStart cr3 root pool origin) (kernel : kernelVirtualStart .i386 ≤ linearAddress)
    (small : linearAddress < Arch.modulus .i386)
    (closed : ∀ index, kernelEntry ≤ index → space.upper index = none) :
    getPageTableEntry state.words cr3 linearAddress = getPageTableEntry origin cr3 linearAddress := by
  have inside := locate_root_lt small
  have high : kernelEntry ≤ (locate .i386 linearAddress).root := by
    have bound : 0xC0000000 ≤ linearAddress := kernel
    simp only [locate, I386.getIndexOfPml2EntryByAddress, kernelEntry, Nat.shiftRight_eq_div_pow]
    omega
  have word := (represents.closed _ (Option.map_eq_none_iff.mp (closed _ high))).2
  have tables : getPageTable state.words cr3 linearAddress = getPageTable origin cr3 linearAddress := by
    rw [getPageTable_eq start, getPageTable_eq start, word]
  rw [getPageTableEntry, getPageTableEntry, tables]
  cases found : getPageTable origin cr3 linearAddress with
  | none => rw [Option.bind_none, Option.bind_none]
  | some table =>
    have same : state.words table = origin table := by
      rw [getPageTable_eq start] at found
      split at found
      · cases found
      · next nonzero =>
        obtain ⟨other, foreign⟩ := start.kernel _ high inside nonzero
        rw [Option.some.injEq] at found
        rw [← found]
        exact represents.outside _ other foreign
    rw [Option.bind_some, Option.bind_some, same]

/-- A state that stands for a space like the partial map. -/
def Follows (root : Nat) (pool : List Nat) (origin : Words .i386)
    (state : State .i386 frames) (map : PageMap) : Prop :=
  ∃ space, Stands root pool origin state space ∧ Mirrors space map

theorem Follows.step (follows : Follows root pool origin state map) (setup : Setup .i386 root pool)
    (user : call.User) (stepped : map.step call = some next) :
    ∃ after, Paging.step root state call = some after ∧ Follows root pool origin after next := by
  obtain ⟨space, stands, mirrors⟩ := follows
  obtain ⟨spaceAfter, moved, result⟩ := mirrors.step user stepped
  have related := stands.step setup (Call.User.proper user).1
  rw [moved] at related
  obtain ⟨after, ran, standsAfter⟩ := rel_some_right related
  exact ⟨after, ran, spaceAfter, standsAfter, result⟩

/-- The entry that the controllers lead to is the one of the partial map. -/
theorem Follows.getEntry {space : Space .i386 frames} (stands : Stands root pool origin state space)
    (mirrors : Mirrors space map) (linearAddress : Nat) :
    match map.backing (locate .i386 linearAddress) with
    | some backing => ∃ entry, state.getEntry root (locate .i386 linearAddress) = some entry ∧
        Matches entry (some backing)
    | none => ∀ entry, state.getEntry root (locate .i386 linearAddress) = some entry →
        entry.isPresent = false ∧ entry.pageFrame = none := by
  have matched := mirrors.entries (locate .i386 linearAddress)
  have found := stands.getEntry (locate_depth .i386 linearAddress)
  rw [Space.getEntry_eq] at found
  cases backing : map.backing (locate .i386 linearAddress) with
  | some backing =>
    rw [backing] at matched
    rw [if_pos (mirrors.pathOf (by rw [backing]; rfl))] at found
    exact ⟨_, found, matched⟩
  | none =>
    rw [backing] at matched
    intro entry here
    rw [found] at here
    split at here
    · obtain rfl := Option.some.inj here
      exact ⟨matched, (mirrors.sound.tidy _).absent matched⟩
    · cases here

theorem Follows.refines (follows : Follows root pool origin state map) (setup : Setup .i386 root pool)
    (start : UserStart cr3 root pool origin) : Refines cr3 root origin state map := by
  obtain ⟨space, stands, mirrors⟩ := follows
  have entry := Follows.getEntry stands mirrors
  have allocator := stands.allocator
  obtain ⟨place, represents⟩ := stands
  have entries : ∀ linearAddress, linearAddress < kernelVirtualStart .i386 → _ :=
    fun _ user => represents.getPageTableEntry_user setup start user
  refine ⟨fun linearAddress user => ?_, fun linearAddress kernel small => ?_, entries,
    fun linearAddress user => ?_, ?_⟩
  · have here := entry linearAddress
    rw [translatePage, entries linearAddress user]
    cases backing : map.backing (locate .i386 linearAddress) with
    | some backing =>
      rw [backing] at here
      obtain ⟨found, reached, present, address, _⟩ := here
      have word : isPresent found.pte = true := present
      simp only [reached, Option.map_some, Option.bind_some, word, if_true]
      exact congrArg some address
    | none =>
      rw [backing] at here
      cases found : state.getEntry root (locate .i386 linearAddress) with
      | none => rfl
      | some entry =>
        have word : isPresent entry.pte = false := (here entry found).1
        simp [word]
  · rw [translatePage, translatePage, represents.getPageTableEntry_kernel start kernel small mirrors.kernel]
  · have here := entry linearAddress
    cases backing : map.backing (locate .i386 linearAddress) with
    | some backing =>
      rw [backing] at here
      obtain ⟨found, reached, _, _, pageFrame⟩ := here
      rw [reached, Option.bind_some, pageFrame]
      rfl
    | none =>
      rw [backing] at here
      cases found : state.getEntry root (locate .i386 linearAddress) with
      | none => rfl
      | some entry => exact (here entry found).2
  · rw [allocator, mirrors.free]

theorem PageMap.fill_outside (filled : run PageMap.fill map addresses = some next)
    (outside : page ∉ addresses.map (locate .i386)) : next.backing page = map.backing page := by
  have keeps : ∀ reached address after, address ∈ addresses →
      reached.backing page = map.backing page → PageMap.fill reached address = some after →
      after.backing page = map.backing page := by
    intro reached address after member same stepped
    have different : page ≠ locate .i386 address := by
      rintro rfl
      exact outside (List.mem_map_of_mem member)
    simp only [PageMap.fill] at stepped
    split at stepped
    · obtain rfl := Option.some.inj stepped
      exact same
    · obtain ⟨i, _, rfl⟩ := Option.map_eq_some_iff.mp stepped
      rw [← same]
      exact update_of_ne different ..
  exact @run_preserves PageMap Nat PageMap.fill map addresses
    (fun reached => reached.backing page = map.backing page) next keeps rfl filled

/-- A call does not affect the pages outside its range. -/
theorem PageMap.step_outside (user : call.User) (stepped : map.step call = some next)
    (outside : page ∉ call.covered .i386) : next.backing page = map.backing page := by
  cases call with
  | mapPage physicalAddress linearAddress flags =>
    obtain rfl := Option.some.inj stepped
    exact update_of_ne (by simpa [Call.covered] using outside) ..
  | mapPages begin limit flags =>
    rw [Call.covered, Space.coveredPages_aligned user.1 user.2.1] at outside
    exact PageMap.fill_outside stepped outside
  | setReadonly begin limit =>
    simp only [PageMap.step] at stepped
    split at stepped
    · rw [Option.some.inj stepped]
    · cases stepped

theorem managedMap_refines (setup : Setup .i386 root pool) (start : Start .i386 root pool state)
    (userStart : UserStart cr3 root pool state.words) (users : ∀ call ∈ calls, call.User)
    (user : call.User)
    (ran : run PageMap.step { backing := fun _ => none, free := state.allocator.freeFrames } calls =
      some map) (stepped : map.step call = some next) :
    ∃ before after, run (Paging.step root) state calls = some before ∧
      Paging.step root before call = some after ∧
      Refines cr3 root state.words before map ∧ Refines cr3 root state.words after next ∧
      ∀ linearAddress, linearAddress < Arch.modulus .i386 →
        locate .i386 linearAddress ∉ call.covered .i386 →
        translatePage after.words cr3 linearAddress = translatePage before.words cr3 linearAddress := by
  have initially : Follows root pool state.words state
      { backing := fun _ => none, free := state.allocator.freeFrames } := by
    refine ⟨_, start.stands setup, start.sound, rfl, fun page => isPresent_blank, ?_, fun _ _ => rfl⟩
    intro index path found
    cases found
  obtain ⟨before, reached, follows⟩ := run_forward (fun _ _ call _ member related moved =>
    related.step setup (users call member) moved) initially ran
  obtain ⟨after, moved, followsAfter⟩ := follows.step setup user stepped
  have refinesBefore := follows.refines setup userStart
  have refinesAfter := followsAfter.refines setup userStart
  refine ⟨before, after, reached, moved, refinesBefore, refinesAfter, fun linearAddress small outside => ?_⟩
  by_cases inside : linearAddress < kernelVirtualStart .i386
  · rw [refinesAfter.translation linearAddress inside, refinesBefore.translation linearAddress inside,
      PageMap.step_outside user stepped outside]
  · have kernel := Nat.le_of_not_lt inside
    rw [refinesAfter.kernel linearAddress kernel small, refinesBefore.kernel linearAddress kernel small]

section

open PageFrameAllocator (sampleAllocator)

theorem sample_userStart : UserStart pageSize (sampleRoot .i386) (samplePool .i386)
    (sampleState .i386 sampleAllocator).words where
  cr3 := by decide +kernel
  nonzero := by decide +kernel
  user _ _ := rfl
  kernel _ _ _ nonzero := by
    have zero : getTableAddress (0 : Word .i386) = 0 := by decide
    exact absurd zero nonzero

def sampleMap : PageMap where
  backing _ := none
  free := sampleAllocator.freeFrames

/-- A page is mapped to a given frame, a range around it to frames of the allocator, and
part of the range is made read-only. -/
theorem managedMap_refines_sample :
    ∃ map next before after,
      run PageMap.step sampleMap [.mapPage 0x5000 0x1000 2, .mapPages 0x0 0x3000 2] = some map ∧
      map.step (.setReadonly 0x1800 0x2800) = some next ∧
      run (Paging.step (sampleRoot .i386)) (sampleState .i386 sampleAllocator)
        [.mapPage 0x5000 0x1000 2, .mapPages 0x0 0x3000 2] = some before ∧
      Paging.step (sampleRoot .i386) before (.setReadonly 0x1800 0x2800) = some after ∧
      Refines pageSize (sampleRoot .i386) (fun _ _ => 0) before map ∧
      Refines pageSize (sampleRoot .i386) (fun _ _ => 0) after next := by
  have possible : ((run PageMap.step sampleMap [.mapPage 0x5000 0x1000 2, .mapPages 0x0 0x3000 2]).bind
      (·.step (.setReadonly 0x1800 0x2800))).isSome := by decide +kernel
  obtain ⟨next, possible⟩ := Option.isSome_iff_exists.mp possible
  obtain ⟨map, ran, stepped⟩ := Option.bind_eq_some_iff.mp possible
  obtain ⟨before, after, reached, moved, first, second, _⟩ :=
    managedMap_refines (sample_setup .i386) sample_start sample_userStart (by decide) (by decide)
      ran stepped
  exact ⟨map, next, before, after, ran, stepped, reached, moved, first, second⟩

end

end

end FlapjackOS.Paging
