import FlapjackOS.Paging.Mapping
import FlapjackOS.Paging.Walk

/-! The mapping calls treat the U/S bit like the R/W bit. Exchanging the two bits in all
words, and the two flags in all calls, turns a run into a run. -/

namespace FlapjackOS.Paging

open Frames Function Bits

variable {arch : Arch} {frames : Nat} {state : State arch frames} {word : Word arch}
  {flags : ProtectionFlags} {enabled : Bool}
  {bit i root table index linearAddress physicalAddress : Nat}
  {path : List Nat} {page : PageIndex}

def exchange (word : Word arch) : Word arch :=
  setFlag (setFlag word readwriteBit (isSupervisor word)) supervisorBit (isReadwrite word)

/-- The place that a bit comes from. -/
def exchangeBit (bit : Nat) : Nat :=
  if bit = supervisorBit then readwriteBit else if bit = readwriteBit then supervisorBit else bit

theorem exchangeBit_lt (inside : i < arch.bits) : exchangeBit i < arch.bits := by
  unfold exchangeBit
  split
  · exact flag_inside arch (by decide)
  split
  · exact flag_inside arch (by decide)
  · exact inside

theorem getLsbD_exchange (inside : i < arch.bits) :
    (exchange word).getLsbD i = word.getLsbD (exchangeBit i) := by
  rw [exchange, getLsbD_setFlag inside, getLsbD_setFlag inside, isReadwrite, isSupervisor,
    testFlag_eq (flag_inside arch (by decide)), testFlag_eq (flag_inside arch (by decide)), exchangeBit]
  split
  · rfl
  split
  · rfl
  · rfl

theorem testFlag_exchange (low : bit < 12) :
    testFlag (exchange word) bit = testFlag word (exchangeBit bit) := by
  have inside := flag_inside arch low
  rw [testFlag_eq inside, getLsbD_exchange inside, testFlag_eq (exchangeBit_lt inside)]

theorem exchange_setFlag :
    exchange (setFlag word bit enabled) = setFlag (exchange word) (exchangeBit bit) enabled := by
  apply BitVec.eq_of_getLsbD_eq
  intro i inside
  rw [getLsbD_exchange inside, getLsbD_setFlag (exchangeBit_lt inside), getLsbD_setFlag inside,
    getLsbD_exchange inside]
  simp only [exchangeBit, supervisorBit, readwriteBit]
  grind

@[simp]
theorem isPresent_exchange : isPresent (exchange word) = isPresent word :=
  testFlag_exchange (by decide)

@[simp]
theorem isReadwrite_exchange : isReadwrite (exchange word) = isSupervisor word :=
  testFlag_exchange (by decide)

theorem getTableAddress_exchange : getTableAddress (exchange word) = getTableAddress word := by
  rw [exchange, getTableAddress_setFlag (by decide), getTableAddress_setFlag (by decide)]

theorem exchange_setPresent : exchange (setPresent word enabled) = setPresent (exchange word) enabled :=
  exchange_setFlag

theorem exchange_setTableAddress (word : Word arch) (address : Nat) :
    exchange (setTableAddress word address) = setTableAddress (exchange word) address := by
  have supervisor : isSupervisor (setTableAddress word address) = isSupervisor word :=
    testFlag_setTableAddress (by decide)
  rw [exchange, exchange, supervisor, isReadwrite_setTableAddress, setTableAddress_eq, setTableAddress_eq,
    setFlag_eq_put, setFlag_eq_put, setFlag_eq_put, setFlag_eq_put, put_comm (mask_low (by decide)),
    put_comm (mask_low (by decide))]

theorem setFrameAddress_exchange (word : Word arch) (address : Nat) :
    setFrameAddress (exchange word) address = (setFrameAddress word address).map exchange := by
  rw [setFrameAddress_eq, setFrameAddress_eq, ← exchange_setTableAddress]
  split <;> rfl

def ProtectionFlags.exchange (flags : ProtectionFlags) : ProtectionFlags :=
  setFlag (setFlag flags 1 flags.supervisor) 3 flags.writable

@[simp]
theorem ProtectionFlags.writable_exchange (flags : ProtectionFlags) :
    ProtectionFlags.writable flags.exchange = ProtectionFlags.supervisor flags := by
  rw [writable, ProtectionFlags.exchange, testFlag_setFlag (by decide), testFlag_setFlag (by decide)]
  rfl

@[simp]
theorem ProtectionFlags.supervisor_exchange (flags : ProtectionFlags) :
    ProtectionFlags.supervisor flags.exchange = ProtectionFlags.writable flags := by
  rw [supervisor, ProtectionFlags.exchange, testFlag_setFlag (by decide)]
  rfl

@[simp]
theorem ProtectionFlags.global_exchange (flags : ProtectionFlags) :
    ProtectionFlags.global flags.exchange = ProtectionFlags.global flags := by
  rw [ProtectionFlags.global, ProtectionFlags.exchange, testFlag_setFlag (by decide),
    testFlag_setFlag (by decide)]
  rfl

theorem setTableProtection_exchange (word : Word arch) (flags : ProtectionFlags) :
    setTableProtection (exchange word) flags.exchange = exchange (setTableProtection word flags) := by
  have apart : readwriteBit ≠ supervisorBit := by decide
  simp only [setTableProtection, setSupervisor, setReadwrite, exchange_setFlag,
    ProtectionFlags.writable_exchange, ProtectionFlags.supervisor_exchange]
  exact setFlag_comm apart

theorem setEntryProtection_exchange (word : Word .x86_64) (flags : ProtectionFlags) :
    X86_64.setEntryProtection (exchange word) flags.exchange =
      exchange (X86_64.setEntryProtection word flags) := by
  simp only [X86_64.setEntryProtection, isPresent_exchange, setTableProtection_exchange]
  split <;> rfl

namespace PageEntry
variable {entry : PageEntry arch} {allocator : PageFrameAllocator frames}

def exchange (entry : PageEntry arch) : PageEntry arch :=
  { entry with pte := Paging.exchange entry.pte }

@[simp]
theorem isPresent_exchange (entry : PageEntry arch) : entry.exchange.isPresent = entry.isPresent :=
  Paging.isPresent_exchange

theorem setProtection_exchange (entry : PageEntry arch) (flags : ProtectionFlags) :
    entry.exchange.setProtection flags.exchange = (entry.setProtection flags).exchange := by
  have apart : readwriteBit ≠ supervisorBit := by decide
  simp only [setProtection, exchange, setGlobal, setSupervisor, Paging.setReadwrite,
    exchange_setFlag, exchange_setPresent, ProtectionFlags.writable_exchange,
    ProtectionFlags.supervisor_exchange, ProtectionFlags.global_exchange]
  congr 2
  exact setFlag_comm apart

theorem setPageFrame_exchange (entry : PageEntry arch) (controller : PageFrameController) :
    entry.exchange.setPageFrame allocator (some controller) =
      (entry.setPageFrame allocator (some controller)).map (Prod.map id exchange) := by
  have drops : entry.exchange.dropPageFrame allocator = entry.dropPageFrame allocator := rfl
  rw [setPageFrame_some, setPageFrame_some, drops]
  cases entry.dropPageFrame allocator with
  | none => rfl
  | some after =>
    simp only [Option.bind_some, exchange, setFrameAddress_exchange]
    cases setFrameAddress entry.pte _ with
    | none => rfl
    | some pte => simp [exchange, exchange_setPresent]

end PageEntry

section
variable {use other : Use arch frames}

/-- The two uses of an entry correspond. -/
def Twins (use other : Use arch frames) : Prop := ∀ allocator entry,
  other allocator (PageEntry.exchange entry) = (use allocator entry).map (Prod.map id PageEntry.exchange)

theorem mapEntry_twins (physicalAddress : Nat) (flags : ProtectionFlags) :
    Twins (mapEntry physicalAddress flags : Use arch frames)
      (mapEntry physicalAddress flags.exchange) := by
  intro allocator entry
  have same : Remaps entry.exchange ↔ Remaps entry := by
    rw [Remaps, Remaps, PageEntry.isPresent_exchange]
  by_cases remaps : Remaps entry
  · rw [mapEntry_remaps _ _ remaps, mapEntry_remaps _ _ (same.mpr remaps)]
    simp only [PageEntry.setMappingTo, PageEntry.setPageFrame_exchange]
    cases entry.setPageFrame allocator (some (.ofPageFrame physicalAddress)) with
    | none => rfl
    | some result => simp [PageEntry.setProtection_exchange]
  · rw [mapEntry_keeps _ _ remaps, mapEntry_keeps _ _ (mt same.mp remaps)]
    simp [PageEntry.setProtection_exchange]

theorem fillEntry_twins (flags : ProtectionFlags) :
    Twins (fillEntry flags : Use arch frames) (fillEntry flags.exchange) := by
  intro allocator entry
  cases present : entry.isPresent with
  | true =>
    cases arch with
    | i386 => simp [fillEntry, I386.fillEntry, present, PageEntry.setProtection_exchange]
    | x86_64 =>
      simp [fillEntry, X86_64.allocateAndSetPageFrameMapping, X86_64.setPageEntryProtection, present,
        PageEntry.setProtection_exchange]
  | false =>
    rw [fillEntry_absent _ present, fillEntry_absent _ (by rw [PageEntry.isPresent_exchange, present])]
    simp only [PageEntry.setMappingFrom]
    cases PageFrameController.ofAllocator arch allocator with
    | none => rfl
    | some result =>
      obtain ⟨allocator, controller⟩ := result
      simp only [Option.bind_eq_bind, Option.bind_some, PageEntry.setPageFrame_exchange]
      cases entry.setPageFrame allocator (some controller) with
      | none => rfl
      | some result => simp [PageEntry.setProtection_exchange]

end

namespace State

def exchange (state : State arch frames) : State arch frames :=
  { state with words := fun table index => Paging.exchange (state.words table index) }

theorem exchange_setWord (state : State arch frames) (table index : Nat) (word : Word arch) :
    (state.setWord table index word).exchange =
      state.exchange.setWord table index (Paging.exchange word) := by
  simp only [exchange, setWord]
  congr 1
  funext t i
  by_cases here : t = table
  · subst here
    by_cases there : i = index
    · subst there
      simp
    · simp [there]
  · simp [here]

theorem exchange_putEntry (state : State arch frames) (table index : Nat) (entry : PageEntry arch) :
    (state.putEntry table index entry).exchange =
      state.exchange.putEntry table index entry.exchange := by
  have words := congrArg State.words (state.exchange_setWord table index entry.pte)
  simp only [exchange, putEntry] at words ⊢
  congr 1

theorem create_exchange (state : State arch frames) :
    state.exchange.create = state.create.map (Prod.map exchange id) := by
  have supply : state.exchange.supply = state.supply := rfl
  simp only [create, supply]
  cases state.supply with
  | nil => rfl
  | cons table rest =>
    simp only [Option.map_some, Prod.map, exchange, id]
    congr 3
    funext t i
    by_cases here : t = table
    · rw [here, update_self, update_self]
      apply BitVec.eq_of_getLsbD_eq
      intro i inside
      rw [getLsbD_exchange inside]
      exact (BitVec.getLsbD_zero).trans BitVec.getLsbD_zero.symm
    · rw [update_of_ne here, update_of_ne here]

theorem setLower_exchange (state : State arch frames) (table index below : Nat) :
    state.exchange.setLower table index below = (state.setLower table index below).map exchange := by
  simp only [setLower]
  cases convertLogicalToPhysicalAddress arch below with
  | none => rfl
  | some physicalAddress =>
    simp only [Option.bind_eq_bind, Option.bind_some]
    split
    all_goals
      simp only [Option.pure_def, Option.map_some, exchange_setWord, exchange_setPresent, exchange_setTableAddress]
      rfl

theorem populate_exchange (state : State arch frames) (table : Nat) (path : List Nat) :
    state.exchange.populate table path = (state.populate table path).map exchange := by
  induction path generalizing state table with
  | nil => rfl
  | cons index path ih =>
    have lower : state.exchange.lower table index = state.lower table index := rfl
    rw [populate, populate, lower]
    cases state.lower table index with
    | some _ => rfl
    | none =>
      simp only [create_exchange]
      cases state.create with
      | none => rfl
      | some created =>
        obtain ⟨created, below⟩ := created
        simp only [Option.bind_eq_bind, Option.bind_some, Option.map_some, Prod.map, id,
          setLower_exchange]
        cases created.setLower table index below with
        | none => rfl
        | some linked => exact ih linked below

theorem updatePath_exchange {change other : Word arch → Word arch}
    (twins : ∀ word, other (Paging.exchange word) = Paging.exchange (change word))
    (state : State arch frames) (table : Nat) (path : List Nat) :
    state.exchange.updatePath other table path =
      (state.updatePath change table path).map (Prod.map exchange id) := by
  induction path generalizing state table with
  | nil => rfl
  | cons index path ih =>
    have word : state.exchange.words table index = Paging.exchange (state.words table index) := rfl
    simp only [updatePath, word, twins, ← exchange_setWord]
    have lower : ∀ changed : State arch frames, changed.exchange.lower table index =
      changed.lower table index := fun _ => rfl
    rw [lower]
    cases (state.setWord table index (change (state.words table index))).lower table index with
    | none => rfl
    | some below => exact ih _ below

section
variable {change otherChange : Word arch → Word arch} {use other : Use arch frames}
  (changes : ∀ word, otherChange (Paging.exchange word) = Paging.exchange (change word)) (uses : Twins use other)
  (state : State arch frames) (root : Nat) (page : PageIndex)
include changes uses

theorem access_exchange :
    state.exchange.access root page otherChange other = (state.access root page change use).map exchange := by
  simp only [access, updatePath_exchange changes]
  cases state.updatePath change root (page.root :: page.path) with
  | none => rfl
  | some reached =>
    obtain ⟨reached, table⟩ := reached
    have entry : reached.exchange.entry table page.leaf = (reached.entry table page.leaf).exchange := rfl
    have allocator : reached.exchange.allocator = reached.allocator := rfl
    simp only [Option.bind_eq_bind, Option.bind_some, Option.map_some, Prod.map, id, entry, allocator,
      uses reached.allocator]
    cases use reached.allocator (reached.entry table page.leaf) with
    | none => rfl
    | some result =>
      obtain ⟨allocator, entry⟩ := result
      simp only [Option.map_some, Option.bind_some, Option.pure_def, Prod.map, id, ← exchange_putEntry]
      rfl

theorem mapWith_exchange :
    state.exchange.mapWith root page otherChange other = (state.mapWith root page change use).map exchange := by
  simp only [mapWith, populate_exchange]
  cases state.populate root (page.root :: page.path) with
  | none => rfl
  | some populated => exact access_exchange changes uses populated root page

end

end State

theorem forPages_map {σ τ : Type} {body : σ → Nat → Option σ} {other : τ → Nat → Option τ} {f : σ → τ}
    (commutes : ∀ state page, other (f state) page = (body state page).map f) (limit fuel page : Nat)
    (state : σ) :
    forPages arch other limit fuel page (f state) = (forPages arch body limit fuel page state).map f := by
  induction fuel generalizing page state with
  | zero =>
    rw [forPages, forPages]
    split <;> rfl
  | succ fuel ih =>
    rw [forPages, forPages]
    split
    · simp only [commutes]
      cases body state page with
      | none => rfl
      | some next => exact ih _ next
    · rfl

end FlapjackOS.Paging
