import FlapjackOS.Boot.Progress

/-! Which bytes the enumerator reads. -/

namespace FlapjackOS.Boot

open Frames Machine Paging

variable {arch : Arch} {memory : Memory} {info : MultibootInfo} {limit address finish start : Nat}
  {first entry current : Entry} {rest front behind entries : List Entry}
  {state next enumerator : MultibootMemoryMapPageFrameEnumerator}

/-- The addresses of the fields that `get_next_valid_entry` reads, in order. -/
def getNextValidEntryReads (arch : Arch) (memory : Memory) (limit : Nat) : Nat → Nat → List Nat
  | fuel, entry =>
    if entry < limit then
      entry :: if 0 < entrySize memory entry then
        match fuel with
        | 0 => []
        | fuel + 1 =>
          let next := arch.add (arch.add entry (entrySize memory entry)) 4
          (next + 20) :: if entryType memory next = memoryAvailable then []
            else getNextValidEntryReads arch memory limit fuel next
      else []
    else []

namespace MultibootMemoryMapPageFrameEnumerator

section
variable (arch : Arch) (memory : Memory) (enumerator : MultibootMemoryMapPageFrameEnumerator)

def nextValidEntryReads : List Nat :=
  getNextValidEntryReads arch memory enumerator.limit arch.modulus enumerator.entry

def hasNextReads : List Nat :=
  if 0 < enumerator.remainingLengthOfEntry then [] else enumerator.nextValidEntryReads arch memory

/-- The search, and then the length and the base of the entry it has found. -/
def scanToNextValidEntryReads : List Nat :=
  enumerator.nextValidEntryReads arch memory ++
    match enumerator.nextValidEntry arch memory with
    | some (some entry) => [entry + 12, entry + 4]
    | _ => []

def getNextReads : List Nat :=
  enumerator.hasNextReads arch memory ++
    if enumerator.hasNext arch memory = some true ∧ enumerator.remainingLengthOfEntry < pageSize then
      enumerator.scanToNextValidEntryReads arch memory
    else []

end

/-- A field of four bytes lies in the map. -/
def InsideMap (arch : Arch) (info : MultibootInfo) (field : Nat) : Prop :=
  mapStart arch info ≤ field ∧ field + 4 ≤ mapEnd arch info

/-- Neither call reads a field outside the map, and a frame that is returned is one that the
base of an entry in the map leads to. -/
structure StaysInside (arch : Arch) (memory : Memory) (info : MultibootInfo)
    (state : MultibootMemoryMapPageFrameEnumerator) : Prop where
  hasNext : ∀ field ∈ state.hasNextReads arch memory, InsideMap arch info field
  getNext : ∀ field ∈ state.getNextReads arch memory, InsideMap arch info field
  returned : ∀ pageFrame next, state.getNext arch memory = some (pageFrame, next) →
    InsideMap arch info (next.entry + 4)

/-- The search from an entry stops inside the map: at an empty entry or, with its type still in
the map, at an available one. -/
def Stops (memory : Memory) (start finish : Nat) (entries : List Entry) (entry : Nat) : Prop :=
  entrySize memory entry = 0 ∨ ∃ place ∈ placed start entries, entry < place.1 ∧
    (place.2.available = true ∨ place.2.size = 0) ∧ place.1 + sizeofEntry ≤ finish

/-- The current entry is one of the map, and it has a page left or another entry behind it. -/
structure Confined (arch : Arch) (memory : Memory) (info : MultibootInfo) (entries : List Entry)
    (state : MultibootMemoryMapPageFrameEnumerator) : Prop where
  listed : ∃ current, (state.entry, current) ∈ placed (mapStart arch info) entries
  page : pageSize ≤ state.remainingLengthOfEntry → InsideMap arch info (state.entry + 4)
  stops : state.remainingLengthOfEntry < pageSize →
    Stops memory (mapStart arch info) (mapEnd arch info) entries state.entry

theorem placed_append : placed address (front ++ behind) =
    placed address front ++ placed (address + extent front) behind := by
  induction front generalizing address with
  | nil => simp [placed, extent]
  | cons first rest ih =>
    have place : address + first.size + 4 + extent rest = address + extent (first :: rest) := by
      rw [extent_cons]
      omega
    rw [List.cons_append, placed, placed, ih, place, List.cons_append]

theorem placed_bounds (member : place ∈ placed address entries) :
    address ≤ place.1 ∧ place.1 + place.2.size + 4 ≤ address + extent entries := by
  induction entries generalizing address with
  | nil => cases member
  | cons first rest ih =>
    rw [extent_cons]
    rcases List.mem_cons.mp member with rfl | later
    · dsimp only
      omega
    · have bounds := ih later
      omega

theorem placed_split (member : place ∈ placed address entries) :
    ∃ front behind, entries = front ++ place.2 :: behind ∧ place.1 = address + extent front := by
  induction entries generalizing address with
  | nil => cases member
  | cons first rest ih =>
    rcases List.mem_cons.mp member with rfl | later
    · exact ⟨[], rest, rfl, rfl⟩
    · obtain ⟨front, behind, shape, address_eq⟩ := ih later
      refine ⟨first :: front, behind, by rw [shape, List.cons_append], ?_⟩
      rw [address_eq, extent_cons]
      omega

/-- The places behind an entry are those at higher addresses. -/
theorem mem_placed_behind :
    (place ∈ placed address (front ++ entry :: behind) ∧ address + extent front < place.1) ↔
      place ∈ placed (address + extent front + entry.size + 4) behind := by
  rw [placed_append, List.mem_append, placed, List.mem_cons]
  constructor
  · rintro ⟨early | same | late, above⟩
    · have bounds := placed_bounds early
      omega
    · simp [same] at above
    · exact late
  · intro late
    have bounds := placed_bounds late
    exact ⟨.inr (.inr late), by omega⟩

/-- The search from an entry, told from the entries behind it. -/
def StopsBehind (finish address : Nat) (entry : Entry) (behind : List Entry) : Prop :=
  entry.size = 0 ∨ ∃ place ∈ placed (address + entry.size + 4) behind,
    (place.2.available = true ∨ place.2.size = 0) ∧ place.1 + sizeofEntry ≤ finish

theorem stopsBehind_cons {next : Entry} : StopsBehind finish address entry (next :: behind) ↔
    entry.size = 0 ∨ (address + entry.size + 4 + sizeofEntry ≤ finish ∧
      (next.available = true ∨ StopsBehind finish (address + entry.size + 4) next behind)) := by
  simp only [StopsBehind, placed, List.exists_mem_cons_iff]
  refine or_congr_right ?_
  constructor
  · rintro (⟨available | empty, room⟩ | ⟨place, member, stop, room⟩)
    · exact ⟨room, .inl available⟩
    · exact ⟨room, .inr (.inl empty)⟩
    · have bounds := placed_bounds member
      exact ⟨by omega, .inr (.inr ⟨place, member, stop, room⟩)⟩
  · rintro ⟨room, available | empty | further⟩
    · exact .inl ⟨.inl available, room⟩
    · exact .inl ⟨.inr empty, room⟩
    · exact .inr further

section
variable (reading : Reading memory limit finish address entry behind)
include reading

theorem Reading.inside_of_empty (low : start ≤ address) (empty : entry.size = 0) :
    ∀ field ∈ getNextValidEntryReads arch memory limit fuel address, start ≤ field ∧ field + 4 ≤ finish := by
  have below := reading.below
  unfold getNextValidEntryReads
  rw [if_pos below.2, reading.size, if_neg (by omega)]
  simp only [List.mem_singleton, forall_eq]
  omega

theorem Reading.reads_succ (small : limit < arch.modulus) (positive : 0 < entry.size) :
    getNextValidEntryReads arch memory limit (fuel + 1) address =
      address :: (address + entry.size + 4 + 20) ::
        if entryType memory (address + entry.size + 4) = memoryAvailable then []
        else getNextValidEntryReads arch memory limit fuel (address + entry.size + 4) := by
  rw [getNextValidEntryReads, if_pos reading.below.2, reading.step small, reading.size, if_pos positive]

theorem Reading.search_empty (empty : entry.size = 0) :
    getNextValidEntry arch memory limit fuel address = some none := by
  unfold getNextValidEntry
  rw [reading.size, if_neg (by omega)]

/-- The search reads inside the map if and only if something in the map stops it. -/
theorem Reading.reads_inside_iff (small : limit < arch.modulus) (low : start ≤ address)
    (enough : behind.length < fuel) :
    (∀ field ∈ getNextValidEntryReads arch memory limit fuel address,
        start ≤ field ∧ field + 4 ≤ finish) ↔ StopsBehind finish address entry behind := by
  induction behind generalizing address entry fuel with
  | nil =>
    obtain ⟨fuel, rfl⟩ := Nat.exists_eq_succ_of_ne_zero (Nat.ne_zero_of_lt enough)
    have below := reading.below
    by_cases empty : entry.size = 0
    · exact iff_of_true (reading.inside_of_empty low empty) (.inl empty)
    · rw [reading.reads_succ small (Nat.pos_of_ne_zero empty)]
      have total := reading.total
      refine iff_of_false (fun inside => ?_) (by simp [StopsBehind, empty, placed])
      have beyond := inside (address + entry.size + 4 + 20) (List.mem_cons_of_mem _ List.mem_cons_self)
      simp only [extent, List.map_cons, List.map_nil, List.sum_cons, List.sum_nil] at total
      omega
  | cons next behind ih =>
    obtain ⟨fuel, rfl⟩ := Nat.exists_eq_succ_of_ne_zero (Nat.ne_zero_of_lt enough)
    have below := reading.below
    by_cases empty : entry.size = 0
    · exact iff_of_true (reading.inside_of_empty low empty) (.inl empty)
    · rw [reading.reads_succ small (Nat.pos_of_ne_zero empty), stopsBehind_cons, or_iff_right empty]
      simp only [reading.kind, List.forall_mem_cons, sizeofEntry]
      by_cases available : next.available = true
      · rw [if_pos available]
        simp only [List.not_mem_nil, false_imp_iff, implies_true, available, true_or, and_true]
        omega
      · rw [if_neg available, ih reading.tail (by omega) (by simpa using enough), or_iff_right available]
        constructor
        · rintro ⟨_, room, stops⟩
          exact ⟨by omega, stops⟩
        · rintro ⟨room, stops⟩
          exact ⟨by omega, by omega, stops⟩

/-- What stops the search is an empty entry, or an available one that it returns. -/
theorem Reading.search_stops (small : limit < arch.modulus) (enough : behind.length < fuel)
    (stops : StopsBehind finish address entry behind) :
    (getNextValidEntry arch memory limit fuel address = some none ∧
        ∃ other ∈ entry :: behind, other.size = 0) ∨
      ∃ place ∈ placed (address + entry.size + 4) behind,
        getNextValidEntry arch memory limit fuel address = some (some place.1) ∧
          place.1 + sizeofEntry ≤ finish := by
  by_cases empty : entry.size = 0
  · exact .inl ⟨reading.search_empty empty, entry, List.mem_cons_self, empty⟩
  · induction behind generalizing address entry fuel with
    | nil => simp [StopsBehind, empty, placed] at stops
    | cons next behind ih =>
      obtain ⟨fuel, rfl⟩ := Nat.exists_eq_succ_of_ne_zero (Nat.ne_zero_of_lt enough)
      rw [reading.search_succ small (Nat.pos_of_ne_zero empty)]
      rw [stopsBehind_cons, or_iff_right empty] at stops
      obtain ⟨room, stops⟩ := stops
      simp only [reading.kind]
      by_cases available : next.available = true
      · rw [if_pos available]
        exact .inr ⟨_, List.mem_cons_self, rfl, room⟩
      · rw [if_neg available]
        rw [or_iff_right available] at stops
        by_cases nextEmpty : next.size = 0
        · exact .inl ⟨reading.tail.search_empty nextEmpty, next,
            List.mem_cons_of_mem _ List.mem_cons_self, nextEmpty⟩
        · rcases ih reading.tail (by simpa using enough) stops nextEmpty with
            ⟨nothing, other, member, zero⟩ | ⟨place, member, found, inside⟩
          · exact .inl ⟨nothing, other, List.mem_cons_of_mem _ member, zero⟩
          · exact .inr ⟨place, List.mem_cons_of_mem _ member, found, inside⟩

end

theorem extent_append (front behind : List Entry) : extent (front ++ behind) = extent front + extent behind := by
  simp [extent]

theorem length_le_extent (entries : List Entry) : entries.length ≤ extent entries := by
  induction entries with
  | nil => exact Nat.zero_le _
  | cons first rest ih =>
    rw [extent_cons, List.length_cons]
    omega

/-- The state is at an entry of the map. -/
structure Listed (arch : Arch) (info : MultibootInfo) (entries : List Entry)
    (state : MultibootMemoryMapPageFrameEnumerator) : Prop where
  same : state.limit = limitOf arch info
  listed : ∃ current, (state.entry, current) ∈ placed (mapStart arch info) entries

/-- The map as the search from one of its entries finds it. -/
theorem reading_of_occupies (occupies : Occupies arch memory info entries)
    (member : (address, current) ∈ placed (mapStart arch info) entries) :
    ∃ behind, Reading memory (limitOf arch info) (mapEnd arch info) address current behind ∧
      (∀ place, place ∈ placed (mapStart arch info) entries ∧ address < place.1 ↔
        place ∈ placed (address + current.size + 4) behind) ∧
      behind.length ≤ info.mmapLength ∧ ∀ other ∈ current :: behind, other ∈ entries := by
  obtain ⟨front, behind, shape, place_eq⟩ := placed_split member
  dsimp only at shape place_eq
  subst shape place_eq
  have length := occupies.length
  rw [extent_append] at length
  refine ⟨behind, ⟨fun place inside => ?_, ?_, ?_⟩, fun place => mem_placed_behind, ?_, ?_⟩
  · refine occupies.held place ?_
    rw [placed_append]
    exact List.mem_append_right _ inside
  · simp only [mapEnd]
    omega
  · simp only [limitOf, mapEnd, mapStart, sizeofEntry]
    omega
  · have short := length_le_extent behind
    rw [extent_cons] at length
    omega
  · intro other inside
    exact List.mem_append_right _ inside

theorem reads_of_room (room : pageSize ≤ state.remainingLengthOfEntry) :
    state.hasNextReads arch memory = [] ∧ state.getNextReads arch memory = [] := by
  have positive : 0 < state.remainingLengthOfEntry := Nat.lt_of_lt_of_le (by decide) room
  simp [hasNextReads, getNextReads, positive, Nat.not_lt.mpr room]

theorem mem_scanReads (field : Nat) : field ∈ state.scanToNextValidEntryReads arch memory ↔
    field ∈ state.nextValidEntryReads arch memory ∨
      ∃ entry, state.nextValidEntry arch memory = some (some entry) ∧ (field = entry + 12 ∨ field = entry + 4) := by
  rw [scanToNextValidEntryReads, List.mem_append]
  refine or_congr_right ?_
  cases state.nextValidEntry arch memory with
  | none => simp
  | some found => cases found <;> simp

/-- Calls that stay inside search inside, be it in `has_next` or in `get_next`. -/
theorem StaysInside.search_reads (inside : StaysInside arch memory info state)
    (short : state.remainingLengthOfEntry < pageSize) :
    ∀ field ∈ state.nextValidEntryReads arch memory, InsideMap arch info field := by
  obtain ⟨first, second, _⟩ := inside
  intro field member
  by_cases positive : 0 < state.remainingLengthOfEntry
  · -- `has_next` answers without a look at the map, and `get_next` searches
    have more : state.hasNext arch memory = some true := if_pos positive
    refine second field (List.mem_append_right _ ?_)
    rw [if_pos ⟨more, short⟩, mem_scanReads]
    exact .inl member
  · refine first field ?_
    rwa [hasNextReads, if_neg positive]

/-- Calls that search inside and come to an entry inside stay inside. -/
theorem staysInside_of_search (short : state.remainingLengthOfEntry < pageSize)
    (reads : ∀ field ∈ state.nextValidEntryReads arch memory, InsideMap arch info field)
    (arrives : ∀ entry, state.nextValidEntry arch memory = some (some entry) →
      mapStart arch info ≤ entry ∧ entry + sizeofEntry ≤ mapEnd arch info) :
    StaysInside arch memory info state := by
  have first : ∀ field ∈ state.hasNextReads arch memory, InsideMap arch info field := by
    intro field member
    unfold hasNextReads at member
    split at member
    · cases member
    · exact reads field member
  refine ⟨first, fun field member => ?_, fun pageFrame next result => ?_⟩
  · rcases List.mem_append.mp member with early | late
    · exact first field early
    · split at late
      · rcases (mem_scanReads field).mp late with walk | ⟨entry, found, own⟩
        · exact reads field walk
        · have bounds := arrives entry found
          simp only [mapEnd, mapStart, InsideMap, sizeofEntry] at bounds ⊢
          omega
      · cases late
  · cases found : successor arch memory state.limit state.entry with
    | none => cases (getNext_exhausted short found).symm.trans result
    | some entry =>
      cases (getNext_of_successor short found).2.symm.trans result
      have bounds := arrives entry (Option.join_eq_some_iff.mp found)
      simp only [mapEnd, mapStart, InsideMap, sizeofEntry, atEntry] at bounds ⊢
      omega

theorem forall_trace_succ {Good : MultibootMemoryMapPageFrameEnumerator → Prop} :
    (∀ state ∈ trace arch memory (calls + 1) enumerator, Good state) ↔
      Good enumerator ∧ ∀ next, Yields arch memory enumerator next →
        ∀ state ∈ trace arch memory calls next, Good state := by
  constructor
  · intro good
    refine ⟨good _ (mem_trace_self _), fun next yields state member => ?_⟩
    exact good state (mem_trace_succ.mpr (.inr ⟨next, yields, member⟩))
  · rintro ⟨here, later⟩ state member
    rcases mem_trace_succ.mp member with rfl | ⟨next, yields, inside⟩
    · exact here
    · exact later next yields state inside

section
variable (listed : Listed arch info entries state) (occupies : Occupies arch memory info entries)
  (small : limitOf arch info < arch.modulus)
include listed occupies small

theorem Listed.search :
    ((∀ field ∈ state.nextValidEntryReads arch memory, InsideMap arch info field) ↔
      Stops memory (mapStart arch info) (mapEnd arch info) entries state.entry) ∧
    (Stops memory (mapStart arch info) (mapEnd arch info) entries state.entry →
      (state.nextValidEntry arch memory = some none ∧ ∃ other ∈ entries, other.size = 0) ∨
        ∃ place ∈ placed (mapStart arch info) entries, state.entry < place.1 ∧
          state.nextValidEntry arch memory = some (some place.1) ∧ place.1 + sizeofEntry ≤ mapEnd arch info) := by
  obtain ⟨same, current, member⟩ := listed
  obtain ⟨behind, reading, later, short, among⟩ := reading_of_occupies occupies member
  have low := (placed_bounds member).1
  have enough : behind.length < arch.modulus := by
    simp only [limitOf, sizeofEntry] at small
    omega
  have stops_iff : Stops memory (mapStart arch info) (mapEnd arch info) entries state.entry ↔
      StopsBehind (mapEnd arch info) state.entry current behind := by
    simp only [Stops, StopsBehind, ← later, reading.size, and_assoc]
  rw [stops_iff, nextValidEntryReads, nextValidEntry, same]
  refine ⟨reading.reads_inside_iff small low enough, fun stops => ?_⟩
  rcases reading.search_stops small enough stops with ⟨nothing, other, inside, zero⟩ | ⟨place, inside, found, room⟩
  · exact .inl ⟨nothing, other, among other inside, zero⟩
  · obtain ⟨present, above⟩ := (later place).mpr inside
    exact .inr ⟨place, present, above, found, room⟩

/-- In the map, a call stays inside exactly if the state is confined. -/
theorem Listed.staysInside_iff :
    StaysInside arch memory info state ↔ Confined arch memory info entries state := by
  obtain ⟨inside_iff, search⟩ := listed.search occupies small
  rcases Nat.lt_or_ge state.remainingLengthOfEntry pageSize with short | room
  · constructor
    · intro inside
      refine ⟨listed.listed, fun room => absurd room (Nat.not_le.mpr short), fun _ => ?_⟩
      exact inside_iff.mp (inside.search_reads short)
    · rintro ⟨_, _, stops⟩
      refine staysInside_of_search short (inside_iff.mpr (stops short)) fun entry found => ?_
      rcases search (stops short) with ⟨nothing, _⟩ | ⟨place, member, _, same, inside⟩
      · cases nothing.symm.trans found
      · cases same.symm.trans found
        exact ⟨(placed_bounds member).1, inside⟩
  · obtain ⟨first, second⟩ := @reads_of_room arch memory state room
    constructor
    · rintro ⟨_, _, returned⟩
      refine ⟨listed.listed, fun _ => ?_, fun short => absurd short (Nat.not_lt.mpr room)⟩
      exact returned _ (state.takePageFrame arch).2 (getNext_of_room room)
    · rintro ⟨_, page, _⟩
      refine ⟨by simp [first], by simp [second], fun pageFrame next result => ?_⟩
      cases (getNext_of_room room).symm.trans result
      exact page room

/-- As long as the search stops in the map, the loop stays at entries of the map. -/
theorem Listed.step (confined : Confined arch memory info entries state)
    (yields : Yields arch memory state next) : Listed arch info entries next := by
  rcases yields.cases with ⟨_, rfl⟩ | ⟨entry, short, found, rfl⟩
  · exact ⟨listed.same, listed.listed⟩
  · refine ⟨listed.same, ?_⟩
    have valid : state.nextValidEntry arch memory = some (some entry) := Option.join_eq_some_iff.mp found
    rcases (listed.search occupies small).2 (confined.stops short) with ⟨nothing, _⟩ | ⟨place, member, _, same, _⟩
    · cases nothing.symm.trans valid
    · cases same.symm.trans valid
      exact ⟨place.2, member⟩

/-- In a map without empty entries, the loop comes to an entry behind which it finds no other
in the map. -/
theorem Listed.leaves (positive : ∀ entry ∈ entries, 0 < entry.size)
    (member : state ∈ trace arch memory calls (atEntry memory (limitOf arch info) (mapStart arch info))) :
    ∃ more, ∃ last ∈ trace arch memory more (atEntry memory (limitOf arch info) (mapStart arch info)),
      ¬ StaysInside arch memory info last := by
  -- each entry that the loop comes to is nearer to the end of the map
  generalize left : mapEnd arch info - state.entry = distance
  induction distance using Nat.strong_induction_on generalizing state calls with
  | _ distance ih =>
    obtain ⟨more, drained, reached, follows, same, short⟩ := (follows_atEntry.of_mem member).drain member
    have place : Listed arch info entries drained := ⟨follows.same, same ▸ listed.listed⟩
    by_cases stays : StaysInside arch memory info drained
    · have stops := ((place.staysInside_iff occupies small).mp stays).stops short
      rcases (place.search occupies small).2 stops with
        ⟨_, other, inside, zero⟩ | ⟨next, inside, above, found, room⟩
      · exact absurd zero (Nat.ne_of_gt (positive other inside))
      · have valid : successor arch memory drained.limit drained.entry = some next.1 :=
          Option.join_eq_some_iff.mpr found
        obtain ⟨has, result⟩ := getNext_of_successor short valid
        have yields : Yields arch memory drained
            ((atEntry memory drained.limit next.1).takePageFrame arch).2 := ⟨has, _, result⟩
        have nearer : mapEnd arch info - next.1 < distance := by
          rw [same] at above
          simp only [sizeofEntry] at room
          omega
        have arrived : Listed arch info entries
            ((atEntry memory drained.limit next.1).takePageFrame arch).2 := ⟨follows.same, next.2, inside⟩
        exact ih _ nearer arrived (trace_extends reached yields) rfl
    · exact ⟨more, drained, reached, stays⟩

end

theorem Listed.trace_inside_iff (listed : Listed arch info entries enumerator)
    (occupies : Occupies arch memory info entries) (small : limitOf arch info < arch.modulus) (calls : Nat) :
    (∀ state ∈ trace arch memory calls enumerator, StaysInside arch memory info state) ↔
      ∀ state ∈ trace arch memory calls enumerator, Confined arch memory info entries state := by
  induction calls generalizing enumerator with
  | zero => simp only [trace, List.mem_singleton, forall_eq, listed.staysInside_iff occupies small]
  | succ calls ih =>
    rw [forall_trace_succ, forall_trace_succ, listed.staysInside_iff occupies small]
    refine and_congr_right fun confined => forall_congr' fun next => forall_congr' fun yields => ?_
    exact ih (listed.step occupies small confined yields)

/-- As long as every call stays inside the map, it is made in a confined state, and the other
way round. In a map without empty entries, this comes to an end before the loop does. -/
theorem reads_inside_iff_confined (occupies : Occupies arch memory info (first :: rest))
    (constructed : construct arch memory info = some enumerator) :
    (∀ calls, (∀ state ∈ trace arch memory calls enumerator, StaysInside arch memory info state) ↔
      ∀ state ∈ trace arch memory calls enumerator, Confined arch memory info (first :: rest) state) ∧
    ((∀ entry ∈ first :: rest, 0 < entry.size) →
      ∃ calls, ∃ state ∈ trace arch memory calls enumerator, ¬ StaysInside arch memory info state) := by
  obtain ⟨small, rfl⟩ := construct_eq constructed
  have start : Listed arch info (first :: rest)
      (atEntry memory (limitOf arch info) (mapStart arch info)) := ⟨rfl, first, List.mem_cons_self⟩
  refine ⟨start.trace_inside_iff occupies small, fun positive => ?_⟩
  exact start.leaves occupies small positive (mem_trace_self 0)

/-- The pages of the first entry and the search for the next one stay inside, and a later search does not. -/
theorem reads_inside_sample :
    let start : MultibootMemoryMapPageFrameEnumerator := ⟨0xC0001000, 0xC00016C0, 0x100000, 0x2800⟩
    (∀ state ∈ trace .i386 sampleMemory 2 start, StaysInside .i386 sampleMemory sampleInfo state) ∧
      ∃ calls, ∃ state ∈ trace .i386 sampleMemory calls start,
        ¬ StaysInside .i386 sampleMemory sampleInfo state := by
  intro start
  have constructed : construct .i386 sampleMemory sampleInfo = some start := by decide +kernel
  obtain ⟨inside, leaves⟩ := reads_inside_iff_confined sample_describes.toOccupies constructed
  refine ⟨(inside 2).mpr fun state member => ?_, leaves (by decide)⟩
  have first : ∀ state ∈ trace .i386 sampleMemory 2 start, state.entry = 0xC0001000 := by decide +kernel
  have here := first state member
  refine ⟨⟨sampleFirst, here ▸ List.mem_cons_self⟩, fun _ => ?_, fun _ => .inr ?_⟩ <;> rw [here]
  · exact ⟨by decide, by decide⟩
  · exact ⟨(0xC0001030, ⟨20, 0x300000, 0x1000, memoryAvailable⟩), by decide, by decide, .inl rfl, by decide⟩

/-- A map of one entry, with bytes behind it that look like another one. After the page of the
map, `has_next` reads a type behind the map and `get_next` returns the page that is found there. -/
theorem frame_from_behind_map :
    let memory := memoryWith 0xC0001000
      [⟨20, 0x100000, 0x1000, memoryAvailable⟩, ⟨20, 0x300000, 0x1000, memoryAvailable⟩]
    let info : MultibootInfo := ⟨2, 24, 0x1000⟩
    ∃ start next last, construct .i386 memory info = some start ∧
      start.getNext .i386 memory = some (0x100000, next) ∧
      0xC000102C ∈ next.hasNextReads .i386 memory ∧
      next.getNext .i386 memory = some (0x300000, last) ∧ last.entry = 0xC0001018 ∧
      convertPhysicalToLogicalAddress .i386 info.mmapAddr + info.mmapLength = 0xC0001018 := by
  refine ⟨⟨0xC0001000, 0xC0001240, 0x100000, 0x1000⟩, ⟨0xC0001000, 0xC0001240, 0x101000, 0⟩,
    ⟨0xC0001018, 0xC0001240, 0x301000, 0⟩, ?_⟩
  decide +kernel

end MultibootMemoryMapPageFrameEnumerator

end FlapjackOS.Boot
