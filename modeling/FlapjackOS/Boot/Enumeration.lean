import FlapjackOS.Boot.FrameEnumerator

namespace FlapjackOS.Boot

open Frames Machine Paging MultibootMemoryMapPageFrameEnumerator

/-- An entry of the memory map. Its region is below 4 GB. -/
structure Entry where
  size : Nat
  base : Nat
  length : Nat
  kind : Nat
  deriving DecidableEq, Repr

namespace Entry

def available (entry : Entry) : Bool := entry.kind == memoryAvailable

def Has (entry : Entry) (x : Nat) : Prop := entry.base ≤ x ∧ x < entry.base + entry.length

/-- The page that begins at an address is in the region. -/
def Contains (entry : Entry) (address : Nat) : Prop :=
  entry.base ≤ address ∧ address + pageSize ≤ entry.base + entry.length

/-- The whole pages of the region, counted from its base. -/
def frames (entry : Entry) : List Nat :=
  (List.range (entry.length / pageSize)).map fun k => entry.base + k * pageSize

/-- The fields that are read from memory at the address are those of the entry. -/
def StoredAt (memory : Memory) (address : Nat) (entry : Entry) : Prop :=
  entrySize memory address = entry.size ∧ baseAddrLow memory address = entry.base ∧
    lengthLow memory address = entry.length ∧ entryType memory address = entry.kind

instance (memory : Memory) (address : Nat) (entry : Entry) : Decidable (entry.StoredAt memory address) :=
  inferInstanceAs (Decidable (_ ∧ _))

end Entry

variable {arch : Arch} {memory : Memory} {info : MultibootInfo} {limit finish address a : Nat}
  {first entry next other : Entry} {rest behind later found entries : List Entry}
  {enumerator : MultibootMemoryMapPageFrameEnumerator}

/-- The entries with their addresses. -/
def placed : Nat → List Entry → List (Nat × Entry)
  | _, [] => []
  | address, entry :: rest => (address, entry) :: placed (address + entry.size + 4) rest

/-- The bytes that the entries take. -/
def extent (entries : List Entry) : Nat := (entries.map fun entry => entry.size + 4).sum

/-- Where the map is. -/
abbrev mapStart (arch : Arch) (info : MultibootInfo) : Nat := convertPhysicalToLogicalAddress arch info.mmapAddr

abbrev mapEnd (arch : Arch) (info : MultibootInfo) : Nat := mapStart arch info + info.mmapLength

/-- The end of the walk, as the constructor computes it. -/
def limitOf (arch : Arch) (info : MultibootInfo) : Nat := mapStart arch info + sizeofEntry * info.mmapLength

/-- Memory holds the entries one behind the other, and nothing else in the bytes of the map. -/
structure Occupies (arch : Arch) (memory : Memory) (info : MultibootInfo) (entries : List Entry) : Prop where
  held : ∀ place ∈ placed (mapStart arch info) entries, place.2.StoredAt memory place.1
  length : info.mmapLength = extent entries

/-- Memory holds the entries as the boot loader describes them. -/
structure Describes (arch : Arch) (memory : Memory) (info : MultibootInfo) (entries : List Entry) : Prop
    extends Occupies arch memory info entries where
  sizes : ∀ entry ∈ entries, 20 ≤ entry.size
  regions : ∀ entry ∈ entries, entry.base + entry.length ≤ 2 ^ 32
  disjoint : entries.Pairwise fun entry other => ∀ x, ¬ (entry.Has x ∧ other.Has x)

theorem extent_cons : extent (entry :: behind) = entry.size + 4 + extent behind := by
  simp [extent]

namespace MultibootMemoryMapPageFrameEnumerator

/-- What one round of the search needs to know about the entry it starts from. -/
structure Reading (memory : Memory) (limit finish address : Nat) (entry : Entry) (behind : List Entry) :
    Prop where
  held : ∀ place ∈ placed address (entry :: behind), place.2.StoredAt memory place.1
  total : address + extent (entry :: behind) = finish
  bounded : finish ≤ limit

theorem Reading.size (reading : Reading memory limit finish address entry behind) :
    entrySize memory address = entry.size :=
  (reading.held _ List.mem_cons_self).1

theorem Reading.tail (reading : Reading memory limit finish address entry (next :: behind)) :
    Reading memory limit finish (address + entry.size + 4) next behind where
  held place member := reading.held place (List.mem_cons_of_mem _ member)
  total := by
    have total := reading.total
    rw [extent_cons] at total
    omega
  bounded := reading.bounded

theorem Reading.below (reading : Reading memory limit finish address entry behind) :
    address + entry.size + 4 ≤ finish ∧ address < limit := by
  have total := reading.total
  have bounded := reading.bounded
  rw [extent_cons] at total
  omega

theorem Reading.step (reading : Reading memory limit finish address entry behind)
    (small : limit < arch.modulus) :
    arch.add (arch.add address (entrySize memory address)) 4 = address + entry.size + 4 := by
  have below := reading.below
  have bounded := reading.bounded
  rw [reading.size, Arch.add_add_of_lt (by omega)]

theorem Reading.kind (reading : Reading memory limit finish address entry (next :: behind)) :
    entryType memory (address + entry.size + 4) = memoryAvailable ↔ next.available = true := by
  rw [(reading.tail.held _ List.mem_cons_self).2.2.2, Entry.available, beq_iff_eq]

theorem Reading.search_succ (reading : Reading memory limit finish address entry behind)
    (small : limit < arch.modulus) (positive : 0 < entry.size) :
    getNextValidEntry arch memory limit (fuel + 1) address =
      if entryType memory (address + entry.size + 4) = memoryAvailable then
        some (some (address + entry.size + 4))
      else getNextValidEntry arch memory limit fuel (address + entry.size + 4) := by
  rw [getNextValidEntry, if_pos ⟨reading.below.2, by rw [reading.size]; exact positive⟩]
  simp only [reading.step small]

end MultibootMemoryMapPageFrameEnumerator

/-- Memory from `address` on holds the entries, all of them below the limit. -/
structure Stored (memory : Memory) (limit address : Nat) (entries : List Entry) : Prop where
  held : ∀ place ∈ placed address entries, place.2.StoredAt memory place.1
  sizes : ∀ entry ∈ entries, 20 ≤ entry.size
  inside : address + extent entries ≤ limit

/-- The available ones among the entries, with their addresses. -/
def availables (address : Nat) (entries : List Entry) : List (Nat × Entry) :=
  (placed address entries).filter fun place => place.2.available

theorem Stored.tail (stored : Stored memory limit address (entry :: rest)) :
    Stored memory limit (address + entry.size + 4) rest where
  held place member := stored.held place (List.mem_cons_of_mem _ member)
  sizes other member := stored.sizes other (List.mem_cons_of_mem _ member)
  inside := by
    have inside := stored.inside
    rw [extent_cons] at inside
    omega

theorem Stored.reading (stored : Stored memory limit address (entry :: rest)) :
    Reading memory limit (address + extent (entry :: rest)) address entry rest :=
  ⟨stored.held, rfl, stored.inside⟩

section
variable (stored : Stored memory limit address (entry :: rest)) (bounded : limit < arch.modulus)
include stored bounded

/-- From an entry, the walk comes to the first available one behind it. -/
theorem Stored.getNextValidEntry (enough : rest.length ≤ fuel)
    (first : (availables (address + entry.size + 4) rest).head? = some place) :
    Boot.getNextValidEntry arch memory limit fuel address = some (some place.1) := by
  induction rest generalizing address entry fuel with
  | nil => simp [availables, placed] at first
  | cons next rest ih =>
    obtain ⟨fuel, rfl⟩ : ∃ less, fuel = less + 1 := ⟨fuel - 1, by simp only [List.length_cons] at enough; omega⟩
    have large := stored.sizes entry List.mem_cons_self
    rw [stored.reading.search_succ bounded (by omega)]
    simp only [stored.reading.kind]
    rw [availables, placed, List.filter_cons] at first
    by_cases available : next.available = true
    · rw [if_pos available, List.head?_cons, Option.some.injEq] at first
      rw [if_pos available, ← first]
    · rw [if_neg available] at first
      rw [if_neg available]
      exact ih stored.tail (by simpa using enough) first

theorem Stored.successor (first : (availables (address + entry.size + 4) rest).head? = some place) :
    Boot.successor arch memory limit address = some place.1 := by
  have enough : rest.length ≤ arch.modulus := by
    have short : rest.length ≤ extent (entry :: rest) := by
      simp only [extent, List.map_cons, List.sum_cons]
      refine Nat.le_add_left_of_le (List.length_le_sum_of_one_le _ ?_ |>.trans' (by simp))
      simp
    have inside := stored.inside
    omega
  rw [Boot.successor, stored.getNextValidEntry bounded enough first]
  rfl

/-- The walk comes to all available entries in order, and then goes on from the last one. -/
theorem Stored.successors (count : Nat) :
    Boot.successors arch memory limit ((availables (address + entry.size + 4) rest).length + count) address =
      (availables (address + entry.size + 4) rest).map Prod.fst ++
        Boot.successors arch memory limit count
          (((availables (address + entry.size + 4) rest).map Prod.fst).getLastD address) := by
  induction rest generalizing address entry with
  | nil => simp [availables, placed]
  | cons next rest ih =>
    have later := ih stored.tail
    by_cases available : next.available = true
    · have list : availables (address + entry.size + 4) (next :: rest) =
          (address + entry.size + 4, next) ::
            availables (address + entry.size + 4 + next.size + 4) rest := by
        rw [availables, placed, List.filter_cons, if_pos available, availables]
      have found := stored.successor bounded (by rw [list]; rfl)
      rw [list, List.length_cons, Nat.succ_add, Boot.successors, found]
      simp only [List.map_cons, List.cons_append, List.getLastD_cons]
      rw [later]
    · have list : availables (address + entry.size + 4) (next :: rest) =
          availables (address + entry.size + 4 + next.size + 4) rest := by
        rw [availables, placed, List.filter_cons, if_neg available, availables]
      rw [list]
      cases shape : availables (address + entry.size + 4 + next.size + 4) rest with
      | nil => simp
      | cons place more =>
        have here := stored.successor bounded (by rw [list, shape]; rfl)
        have there := stored.tail.successor bounded (by rw [shape]; rfl)
        rw [shape] at later
        rw [List.length_cons, Nat.succ_add, Boot.successors, there] at later
        rw [List.length_cons, Nat.succ_add, Boot.successors, here]
        simp only [List.map_cons, List.getLastD_cons] at later ⊢
        exact later

end

theorem availables_snd (entries : List Entry) :
    (availables address entries).map Prod.snd = entries.filter Entry.available := by
  induction entries generalizing address with
  | nil => rfl
  | cons entry rest ih =>
    rw [availables, placed, List.filter_cons, List.filter_cons]
    by_cases available : entry.available = true
    · rw [if_pos available, if_pos available, List.map_cons, ← ih, availables]
    · rw [if_neg available, if_neg available, ← ih, availables]

/-- The page that begins at the address is in one of the entries. -/
def Inside (entries : List Entry) (address : Nat) : Prop := ∃ entry ∈ entries, entry.Contains address

/-- The fields have 32 bits, and so has the end of the region. -/
structure Entry.Fits (entry : Entry) : Prop where
  base : entry.base < 2 ^ 32
  length : entry.length < 2 ^ 32
  region : entry.base + entry.length ≤ 2 ^ 32

/-- The addresses that are returned for an entry behind the first one. -/
def Entry.listed (arch : Arch) (entry : Entry) : List Nat :=
  pagesFrom arch entry.base (1 + arch.sub entry.length pageSize / pageSize)

theorem Entry.mem_frames : a ∈ entry.frames ↔ ∃ k < entry.length / pageSize, entry.base + k * pageSize = a := by
  simp [Entry.frames]

theorem Entry.contains_of_mem (member : a ∈ entry.frames) : entry.Contains a := by
  obtain ⟨k, bound, rfl⟩ := Entry.mem_frames.mp member
  simp only [Entry.Contains, pageSize] at bound ⊢
  omega

/-- A page of the region is in step with its base just if it is one of the whole pages. -/
theorem Entry.mem_of_contains (contains : entry.Contains a) (step : a % pageSize = entry.base % pageSize) :
    a ∈ entry.frames := by
  simp only [Entry.Contains, pageSize] at contains step
  refine Entry.mem_frames.mpr ⟨(a - entry.base) / pageSize, ?_, ?_⟩
  · simp only [pageSize]
    omega
  · simp only [pageSize]
    omega

theorem Entry.base_mem (long : pageSize ≤ entry.length) : entry.base ∈ entry.frames :=
  Entry.mem_of_contains ⟨Nat.le_refl _, Nat.add_le_add_left long _⟩ rfl

theorem Entry.Contains.has (contains : entry.Contains a) : entry.Has a := by
  simp only [Entry.Contains, pageSize] at contains
  exact ⟨contains.1, by omega⟩

theorem Entry.step_of_mem (member : a ∈ entry.frames) : a % pageSize = entry.base % pageSize := by
  obtain ⟨k, _, rfl⟩ := Entry.mem_frames.mp member
  exact Nat.add_mul_mod_self_right ..

theorem Entry.frames_disjoint (apart : ∀ x, ¬ (entry.Has x ∧ other.Has x)) :
    List.Disjoint entry.frames other.frames :=
  fun address here there => apart address ⟨(Entry.contains_of_mem here).has, (Entry.contains_of_mem there).has⟩

theorem pagesFrom_eq_frames (arch : Arch) (fits : entry.Fits) :
    pagesFrom arch entry.base (entry.length / pageSize) = entry.frames := by
  have large := arch.modulus_large
  have region := fits.region
  refine List.map_congr_left fun k member => Nat.mod_eq_of_lt ?_
  have bound := List.mem_range.mp member
  simp only [pageSize] at bound ⊢
  omega

theorem Entry.listed_long (arch : Arch) (fits : entry.Fits) (long : pageSize ≤ entry.length) :
    entry.listed arch = entry.frames := by
  have less : arch.sub entry.length pageSize = entry.length - pageSize :=
    Arch.sub_of_le long (fits.length.trans_le arch.modulus_large)
  rw [← pagesFrom_eq_frames arch fits, Entry.listed, less]
  simp only [pageSize] at long ⊢
  congr 1
  omega

/-- An entry of less than a page makes the length wrap around, and gives every address in step
with its base. -/
theorem Entry.mem_listed_short (fits : entry.Fits) (short : entry.length < pageSize)
    (bounded : a < arch.modulus) (step : a % pageSize = entry.base % pageSize) :
    a ∈ entry.listed arch := by
  have whole := PageFrameAllocator.modulus_pages arch
  have large := arch.modulus_large
  have low := fits.base
  have wrapped : arch.sub entry.length pageSize = entry.length + arch.modulus - pageSize :=
    Arch.sub_of_lt short (by simp only [pageSize]; omega)
  rw [Entry.listed, wrapped, pagesFrom]
  simp only [pageSize] at *
  by_cases above : entry.base ≤ a
  · refine List.mem_map.mpr ⟨(a - entry.base) / 4096, List.mem_range.mpr (by omega), ?_⟩
    rw [show entry.base + (a - entry.base) / 4096 * 4096 = a by omega]
    exact Nat.mod_eq_of_lt bounded
  · refine List.mem_map.mpr ⟨(a + arch.modulus - entry.base) / 4096, List.mem_range.mpr (by omega), ?_⟩
    rw [show entry.base + (a + arch.modulus - entry.base) / 4096 * 4096 = a + arch.modulus by omega,
      Nat.add_mod_right]
    exact Nat.mod_eq_of_lt bounded

/-- Everything that is returned: the whole pages of the first entry, what the other ones give,
and what is found behind the end of the map. -/
def returned (arch : Arch) (first : Entry) (later found : List Entry) : List Nat :=
  first.frames ++ later.flatMap (Entry.listed arch) ++ found.flatMap (Entry.listed arch)

/-- All pages are in available entries, and none comes twice. -/
structure Sound (entries : List Entry) (addresses : List Nat) : Prop where
  inside : ∀ address ∈ addresses, Inside entries address
  distinct : addresses.Nodup

/-- An entry of less than a page, other than the first, makes the enumeration unsound. -/
theorem long_of_sound (fits : ∀ entry ∈ first :: later, entry.Fits)
    (sound : Sound (first :: later) (returned arch first later found)) :
    ∀ entry ∈ later, pageSize ≤ entry.length := by
  intro entry member
  by_contra short
  have short := Nat.lt_of_not_le short
  obtain ⟨inside, distinct⟩ := sound
  replace inside address member := inside address (List.mem_append_left _ member)
  replace distinct := (List.nodup_append.mp distinct).1
  have small := fits entry (List.mem_cons_of_mem _ member)
  have large := arch.modulus_large
  -- every address in step with the base is returned and so is inside of a region
  have all (a : Nat) (bounded : a < arch.modulus) (step : a % pageSize = entry.base % pageSize) :
      a ∈ later.flatMap (Entry.listed arch) :=
    List.mem_flatMap.mpr ⟨entry, member, Entry.mem_listed_short small short bounded step⟩
  have top (a : Nat) (bounded : a < arch.modulus) (step : a % pageSize = entry.base % pageSize) :
      a + pageSize ≤ 2 ^ 32 := by
    obtain ⟨other, known, _, high⟩ := inside a (List.mem_append_right _ (all a bounded step))
    exact high.trans (fits other known).region
  have below := top (2 ^ 32 - pageSize + entry.base % pageSize) (by simp only [pageSize]; omega)
    (by simp only [pageSize]; omega)
  have aligned : entry.base % pageSize = 0 := by
    simp only [pageSize] at below ⊢
    omega
  -- so the page at zero is returned, also for the region that it is the first page of
  have zero : 0 ∈ entry.listed arch :=
    Entry.mem_listed_short small short (by omega) (by rw [aligned]; rfl)
  obtain ⟨other, known, low, high⟩ :=
    inside 0 (List.mem_append_right _ (List.mem_flatMap.mpr ⟨entry, member, zero⟩))
  have long : pageSize ≤ other.length := by omega
  have again : 0 ∈ other.frames := by
    have start : other.base = 0 := by omega
    exact start ▸ Entry.base_mem long
  obtain ⟨_, separate, apart⟩ := List.nodup_append.mp distinct
  rcases List.mem_cons.mp known with rfl | known
  · exact apart 0 again 0 (List.mem_flatMap.mpr ⟨entry, member, zero⟩) rfl
  · obtain ⟨_, pairwise⟩ := List.nodup_flatMap.mp separate
    have different : entry ≠ other := by
      rintro rfl
      omega
    have symmetric : Std.Symm (Function.onFun List.Disjoint (Entry.listed arch)) :=
      ⟨fun _ _ disjoint => List.Disjoint.symm disjoint⟩
    have disjoint := pairwise.forall member known different
    exact disjoint zero ((Entry.listed_long arch (fits other (List.mem_cons_of_mem _ known)) long).symm ▸ again)

/-- If the entries behind the first are not too short, all regions give their whole pages. -/
theorem returned_eq (arch : Arch) (fits : ∀ entry ∈ first :: later, entry.Fits)
    (long : ∀ entry ∈ later, pageSize ≤ entry.length) (found : List Entry) :
    returned arch first later found =
      (first :: later).flatMap Entry.frames ++ found.flatMap (Entry.listed arch) := by
  rw [returned, List.flatMap_cons]
  congr 2
  refine List.flatMap_congr fun entry member => ?_
  exact Entry.listed_long arch (fits entry (List.mem_cons_of_mem _ member)) (long entry member)

theorem sound_frames (apart : (first :: later).Pairwise fun entry other => ∀ x, ¬ (entry.Has x ∧ other.Has x)) :
    Sound (first :: later) ((first :: later).flatMap Entry.frames) where
  inside address member := by
    obtain ⟨entry, known, frame⟩ := List.mem_flatMap.mp member
    exact ⟨entry, known, Entry.contains_of_mem frame⟩
  distinct := by
    refine List.nodup_flatMap.mpr ⟨fun entry _ => ?_, apart.imp Entry.frames_disjoint⟩
    refine (List.nodup_map_iff fun k l same => ?_).mpr List.nodup_range
    simp only [pageSize] at same
    omega

/-- What is found behind the map does no harm: the pages named there are in regions of the map that
start out of step with them, and none is named twice. -/
structure Harmless (arch : Arch) (entries found : List Entry) : Prop where
  offset : ∀ entry ∈ found, ∀ page ∈ entry.listed arch, ∃ region ∈ entries,
    region.Contains page ∧ page % pageSize ≠ region.base % pageSize
  distinct : (found.flatMap (Entry.listed arch)).Nodup

section
variable (fits : ∀ entry ∈ first :: later, entry.Fits)
  (apart : (first :: later).Pairwise fun entry other => ∀ x, ¬ (entry.Has x ∧ other.Has x))
include fits apart

theorem sound_iff :
    Sound (first :: later) (returned arch first later found) ↔
      (∀ entry ∈ later, pageSize ≤ entry.length) ∧ Harmless arch (first :: later) found := by
  constructor
  · intro sound
    have long := long_of_sound fits sound
    refine ⟨long, ?_⟩
    obtain ⟨inside, distinct⟩ := sound
    rw [returned_eq arch fits long] at inside distinct
    obtain ⟨_, nodup, fresh⟩ := List.nodup_append.mp distinct
    refine ⟨fun entry member page named => ?_, nodup⟩
    have stray := List.mem_flatMap.mpr ⟨entry, member, named⟩
    obtain ⟨region, known, contains⟩ := inside page (List.mem_append_right _ stray)
    refine ⟨region, known, contains, fun step => ?_⟩
    exact fresh page (List.mem_flatMap.mpr ⟨region, known, Entry.mem_of_contains contains step⟩) page stray rfl
  · rintro ⟨long, offset, nodup⟩
    have regions := sound_frames apart
    have strayed := List.forall_mem_flatMap.mpr offset
    rw [returned_eq arch fits long]
    refine ⟨fun page member => ?_, List.nodup_append.mpr ⟨regions.distinct, nodup, ?_⟩⟩
    · rcases List.mem_append.mp member with frame | stray
      · exact regions.inside page frame
      · obtain ⟨region, known, contains, _⟩ := strayed page stray
        exact ⟨region, known, contains⟩
    · rintro page frame _ stray rfl
      obtain ⟨region, known, contains, step⟩ := strayed page stray
      obtain ⟨other, also, frame⟩ := List.mem_flatMap.mp frame
      have different : region ≠ other := by
        rintro rfl
        exact step (Entry.step_of_mem frame)
      have symmetric : Std.Symm fun entry other : Entry => ∀ x, ¬ (entry.Has x ∧ other.Has x) :=
        ⟨fun _ _ apart x both => apart x both.symm⟩
      exact apart.forall known also different page ⟨contains.has, (Entry.contains_of_mem frame).has⟩

/-- The addresses are moreover multiples of the page size. -/
structure Exact (entries : List Entry) (addresses : List Nat) : Prop extends Sound entries addresses where
  aligned : ∀ address ∈ addresses, address % pageSize = 0

theorem exact_iff :
    Exact (first :: later) (returned arch first later found) ↔
      (∀ entry ∈ later, pageSize ≤ entry.length) ∧
        (∀ entry ∈ first :: later, pageSize ≤ entry.length → entry.base % pageSize = 0) ∧ found = [] := by
  constructor
  · intro exact
    obtain ⟨long, harmless⟩ := (sound_iff fits apart).mp exact.toSound
    have aligned : ∀ entry ∈ first :: later, pageSize ≤ entry.length → entry.base % pageSize = 0 := by
      intro entry member size
      refine exact.aligned _ ?_
      rw [returned_eq arch fits long]
      exact List.mem_append_left _ (List.mem_flatMap.mpr ⟨entry, member, Entry.base_mem size⟩)
    refine ⟨long, aligned, List.eq_nil_iff_forall_not_mem.mpr fun entry member => ?_⟩
    -- the first page named there is in step with the region that it is in
    obtain ⟨page, named⟩ : ∃ page, page ∈ entry.listed arch :=
      ⟨_, List.mem_map_of_mem (List.mem_range.mpr (Nat.lt_of_lt_of_le Nat.zero_lt_one (Nat.le_add_right ..)))⟩
    obtain ⟨region, known, ⟨_, high⟩, step⟩ := harmless.offset entry member page named
    have here := exact.aligned page (List.mem_append_right _ (List.mem_flatMap.mpr ⟨entry, member, named⟩))
    exact step (here.trans (aligned region known (by omega)).symm)
  · rintro ⟨long, aligned, rfl⟩
    have regions := sound_frames apart
    rw [returned_eq arch fits long, List.flatMap_nil, List.append_nil]
    refine ⟨regions, fun page member => ?_⟩
    obtain ⟨entry, known, frame⟩ := List.mem_flatMap.mp member
    obtain ⟨k, bound, _⟩ := Entry.mem_frames.mp frame
    rw [Entry.step_of_mem frame]
    exact aligned entry known (by simp only [pageSize] at bound ⊢; omega)

end

/-- The available entries of the map. -/
def regions (first : Entry) (rest : List Entry) : List Entry := first :: rest.filter Entry.available

/-- The address of the last available entry of the map. -/
def lastAvailable (arch : Arch) (info : MultibootInfo) (first : Entry) (rest : List Entry) : Nat :=
  let start := mapStart arch info
  ((availables (start + first.size + 4) rest).map Prod.fst).getLastD start

/-- The fields that are read from memory at the address. -/
def Entry.read (memory : Memory) (address : Nat) : Entry :=
  ⟨entrySize memory address, baseAddrLow memory address, lengthLow memory address, entryType memory address⟩

/-- What the walk takes for available entries behind the end of the map. -/
def strays (arch : Arch) (memory : Memory) (info : MultibootInfo) (first : Entry) (rest : List Entry)
    (count : Nat) : List Entry :=
  (successors arch memory (limitOf arch info) count (lastAvailable arch info first rest)).map (Entry.read memory)

theorem construct_eq (constructed : construct arch memory info = some enumerator) :
    limitOf arch info < arch.modulus ∧ enumerator = atEntry memory (limitOf arch info)
      (mapStart arch info) := by
  unfold construct at constructed
  split at constructed
  · cases constructed
  · dsimp only at constructed
    split at constructed
    · cases constructed
    · rename_i bounded
      split at constructed
      · cases constructed
        exact ⟨Nat.lt_of_not_le bounded, rfl⟩
      · cases constructed

theorem Describes.stored (describes : Describes arch memory info (first :: rest)) :
    Stored memory (limitOf arch info) (mapStart arch info) (first :: rest) where
  held := describes.held
  sizes := describes.sizes
  inside := by
    rw [limitOf, describes.length, sizeofEntry]
    omega

theorem mem_placed (member : entry ∈ entries) : ∃ place, (place, entry) ∈ placed address entries := by
  induction entries generalizing address with
  | nil => cases member
  | cons head tail ih =>
    rcases List.mem_cons.mp member with rfl | later
    · exact ⟨address, List.mem_cons_self⟩
    · obtain ⟨place, found⟩ := @ih (address + head.size + 4) later
      exact ⟨place, List.mem_cons_of_mem _ found⟩

theorem Describes.fits (describes : Describes arch memory info entries) (member : entry ∈ entries) :
    entry.Fits := by
  obtain ⟨place, found⟩ := mem_placed member
  obtain ⟨_, base, length, _⟩ := describes.held _ found
  dsimp only at base length
  refine ⟨?_, ?_, describes.regions entry member⟩
  · rw [← base]
    exact load_lt
  · rw [← length]
    exact load_lt

theorem Describes.listing (describes : Describes arch memory info (first :: rest))
    (bounded : limitOf arch info < arch.modulus) (count : Nat) :
    listing arch memory (limitOf arch info)
        ((availables (mapStart arch info + first.size + 4) rest).length + count)
        (mapStart arch info) =
      returned arch first (rest.filter Entry.available) (strays arch memory info first rest count) := by
  have stored := describes.stored
  obtain ⟨_, base, length, _⟩ := stored.held _ List.mem_cons_self
  dsimp only at base length
  have fits : first.Fits := describes.fits List.mem_cons_self
  rw [Boot.listing, base, length, pagesFrom_eq_frames arch fits, stored.successors bounded, returned, strays,
    List.flatMap_append, List.append_assoc, List.flatMap_map (Entry.read memory)]
  congr 2
  rw [← availables_snd, List.flatMap_map, List.flatMap_map]
  refine List.flatMap_congr fun place member => ?_
  obtain ⟨_, base, length, _⟩ := stored.tail.held place (List.mem_of_mem_filter member)
  rw [given, Entry.listed, base, length]

theorem strays_nil_iff : (∀ count, strays arch memory info first rest count = []) ↔
    successor arch memory (limitOf arch info) (lastAvailable arch info first rest) = none := by
  simp only [strays, List.map_eq_nil_iff]
  constructor
  · intro nothing
    have one := nothing 1
    rw [successors] at one
    split at one
    · assumption
    · cases one
  · intro nothing count
    cases count with
    | zero => rfl
    | succ count => simp [successors, nothing]

/-- The enumeration is sound if and only if every available entry but the first has a whole
page, and what is found behind the map does no harm. The addresses are moreover page-aligned if
and only if also the bases are, where there are whole pages, and no available entry is found
behind the map. -/
theorem enumeration_sound_iff (describes : Describes arch memory info (first :: rest))
    (constructed : construct arch memory info = some enumerator) :
    ((∀ calls, Sound (regions first rest) (enumerate arch memory calls enumerator)) ↔
      (∀ entry ∈ rest.filter Entry.available, pageSize ≤ entry.length) ∧
        ∀ count, Harmless arch (regions first rest) (strays arch memory info first rest count)) ∧
    ((∀ calls, Exact (regions first rest) (enumerate arch memory calls enumerator)) ↔
      (∀ entry ∈ rest.filter Entry.available, pageSize ≤ entry.length) ∧
        (∀ entry ∈ regions first rest, pageSize ≤ entry.length → entry.base % pageSize = 0) ∧
        successor arch memory (limitOf arch info) (lastAvailable arch info first rest) = none) := by
  obtain ⟨bounded, rfl⟩ := construct_eq constructed
  have available : (regions first rest).Sublist (first :: rest) := List.cons_sublist_cons.mpr List.filter_sublist
  have fits : ∀ entry ∈ regions first rest, entry.Fits := fun entry member => describes.fits (available.subset member)
  have apart := describes.disjoint.sublist available
  have shrinks {xs ys : List Nat} (less : xs <+: ys) (whole : Sound (regions first rest) ys) :
      Sound (regions first rest) xs :=
    ⟨fun a member => whole.inside a (less.subset member), whole.distinct.sublist less.sublist⟩
  constructor
  · rw [forall_enumerate_iff shrinks (availables (mapStart arch info + first.size + 4) rest).length]
    simp only [describes.listing bounded, regions, sound_iff fits apart, forall_and, forall_const]
  · rw [forall_enumerate_iff (fun less whole => ⟨shrinks less whole.toSound,
      fun a member => whole.aligned a (less.subset member)⟩)
      (availables (mapStart arch info + first.size + 4) rest).length]
    simp only [describes.listing bounded, regions, exact_iff fits apart, forall_and, forall_const, strays_nil_iff]

/-- Memory that holds the entries from an address on, and zeros elsewhere. -/
def memoryWith (address : Nat) (entries : List Entry) : Memory :=
  (placed address entries).foldl (fun memory place =>
    store (store (store (store memory place.1 4 place.2.size) (place.1 + 4) 4 place.2.base)
      (place.1 + 12) 4 place.2.length) (place.1 + 20) 4 place.2.kind) fun _ => 0

def sampleInfo : MultibootInfo where
  flags := 2
  mmapLength := 72
  mmapAddr := 0x1000

def sampleFirst : Entry := ⟨20, 0x100000, 0x2800, memoryAvailable⟩

/-- A reserved region between two available ones. -/
def sampleRest : List Entry := [⟨20, 0x102800, 0x1000, 2⟩, ⟨20, 0x300000, 0x1000, memoryAvailable⟩]

def sampleMemory : Memory := memoryWith 0xC0001000 (sampleFirst :: sampleRest)

theorem sample_describes : Describes .i386 sampleMemory sampleInfo (sampleFirst :: sampleRest) where
  held := by decide +kernel
  length := by decide
  sizes := by decide
  regions := by decide
  disjoint := by
    have apart (first second : Entry) (above : first.base + first.length ≤ second.base) (x : Nat) :
        ¬ (first.Has x ∧ second.Has x) := by
      simp only [Entry.Has]
      omega
    refine (List.Pairwise.imp (fun {first second} above => apart first second above) ?_)
    decide

theorem enumeration_sound_sample :
    Exact (regions sampleFirst sampleRest)
      (enumerate .i386 sampleMemory 5 ⟨0xC0001000, 0xC00016C0, 0x100000, 0x2800⟩) :=
  (enumeration_sound_iff sample_describes (by decide +kernel)).2.mpr
    ⟨by decide, by decide, by decide +kernel⟩ 5

/-- A last region of half a page: its page is returned, and then the pages behind it. -/
theorem short_entry_returned :
    let entries : List Entry := [⟨20, 0x100000, 0x1000, memoryAvailable⟩, ⟨20, 0x300000, 0x800, memoryAvailable⟩]
    let memory := memoryWith 0xC0001000 entries
    (construct .i386 memory ⟨2, 48, 0x1000⟩).map (enumerate .i386 memory 3) =
        some [0x100000, 0x300000, 0x301000] ∧
      ∀ entry ∈ entries, ¬ (entry.base ≤ 0x300000 ∧ 0x300000 + pageSize ≤ entry.base + entry.length) := by
  decide +kernel

end FlapjackOS.Boot
