import FlapjackOS.Boot.Enumeration
import Mathlib.Logic.Relation

namespace FlapjackOS.Boot

open Frames Machine Paging Relation

namespace MultibootMemoryMapPageFrameEnumerator

section
variable (arch : Arch) (memory : Memory)

/-- The states that up to `calls` calls of `get_next` lead to, each made while `has_next`
is true. -/
def trace : Nat → MultibootMemoryMapPageFrameEnumerator → List MultibootMemoryMapPageFrameEnumerator
  | 0, enumerator => [enumerator]
  | calls + 1, enumerator =>
    enumerator ::
      if enumerator.hasNext arch memory = some true then
        match enumerator.getNext arch memory with
        | some (_, next) => trace calls next
        | none => []
      else []

/-- Whenever `has_next` is true, `get_next` returns. -/
def Progresses (enumerator : MultibootMemoryMapPageFrameEnumerator) : Prop :=
  ∀ calls, ∀ state ∈ trace arch memory calls enumerator,
    state.hasNext arch memory = some true → (state.getNext arch memory).isSome

/-- The loop that calls `get_next` while `has_next` is true comes to its end. -/
def LoopEnds (enumerator : MultibootMemoryMapPageFrameEnumerator) : Prop :=
  ∃ calls, ∃ state ∈ trace arch memory calls enumerator, state.hasNext arch memory = some false

/-- The walk from one entry to the next leads there. -/
def Comes (limit : Nat) : Nat → Nat → Prop :=
  ReflTransGen fun entry next => successor arch memory limit entry = some next

/-- The entry is a number of whole pages long. -/
def WholePages (entry : Nat) : Prop := lengthLow memory entry % pageSize = 0

instance (entry : Nat) : Decidable (WholePages memory entry) := inferInstanceAs (Decidable (_ = _))

end

variable {arch : Arch} {memory : Memory} {enumerator state next : MultibootMemoryMapPageFrameEnumerator}
  {limit start entry : Nat}

/-- One round of the loop. -/
structure Yields (arch : Arch) (memory : Memory) (state next : MultibootMemoryMapPageFrameEnumerator) : Prop where
  more : state.hasNext arch memory = some true
  result : ∃ pageFrame, state.getNext arch memory = some (pageFrame, next)

theorem mem_trace_succ : state ∈ trace arch memory (calls + 1) enumerator ↔
    state = enumerator ∨ ∃ next, Yields arch memory enumerator next ∧ state ∈ trace arch memory calls next := by
  rw [trace, List.mem_cons]
  refine or_congr_right ?_
  by_cases more : enumerator.hasNext arch memory = some true
  · rw [if_pos more]
    cases got : enumerator.getNext arch memory with
    | none =>
      refine iff_of_false List.not_mem_nil ?_
      rintro ⟨next, ⟨_, pageFrame, result⟩, _⟩
      cases got.symm.trans result
    | some result =>
      constructor
      · intro member
        exact ⟨result.2, ⟨more, result.1, got⟩, member⟩
      · rintro ⟨next, ⟨_, pageFrame, same⟩, member⟩
        cases got.symm.trans same
        exact member
  · rw [if_neg more]
    refine iff_of_false List.not_mem_nil ?_
    rintro ⟨next, yields, _⟩
    exact more yields.more

theorem mem_trace_self (calls : Nat) : enumerator ∈ trace arch memory calls enumerator := by
  cases calls with
  | zero => exact List.mem_singleton_self _
  | succ calls => exact List.mem_cons_self

theorem trace_extends (member : state ∈ trace arch memory calls enumerator)
    (yields : Yields arch memory state next) : next ∈ trace arch memory (calls + 1) enumerator := by
  induction calls generalizing enumerator with
  | zero =>
    rw [List.mem_singleton.mp member] at yields
    exact mem_trace_succ.mpr (.inr ⟨next, yields, mem_trace_self 0⟩)
  | succ calls ih =>
    rcases mem_trace_succ.mp member with same | ⟨other, first, later⟩
    · exact mem_trace_succ.mpr (.inr ⟨next, same ▸ yields, mem_trace_self _⟩)
    · exact mem_trace_succ.mpr (.inr ⟨other, first, ih later⟩)

/-- A round takes a page of the current entry, or arrives at the next one. -/
theorem Yields.cases (yields : Yields arch memory state next) :
    (pageSize ≤ state.remainingLengthOfEntry ∧ next = (state.takePageFrame arch).2) ∨
      ∃ entry, state.remainingLengthOfEntry < pageSize ∧
        successor arch memory state.limit state.entry = some entry ∧
        next = ((atEntry memory state.limit entry).takePageFrame arch).2 := by
  obtain ⟨_, pageFrame, result⟩ := yields
  rcases Nat.lt_or_ge state.remainingLengthOfEntry pageSize with short | room
  · right
    cases found : successor arch memory state.limit state.entry with
    | none => cases (getNext_exhausted short found).symm.trans result
    | some entry =>
      have same := Option.some.inj ((getNext_of_successor short found).2.symm.trans result)
      exact ⟨entry, short, rfl, (congrArg Prod.snd same).symm⟩
  · left
    have same := Option.some.inj ((getNext_of_room room).symm.trans result)
    exact ⟨room, (congrArg Prod.snd same).symm⟩

theorem sub_pageSize_mod (arch : Arch) (x : Nat) : arch.sub x pageSize % pageSize = x % pageSize := by
  cases arch <;> simp only [Arch.sub, wordSub, Arch.modulus, Arch.wordBytes, pageSize] <;> omega

/-- The state of a loop over the entries from `start` on. What is left of an entry differs from
its length by whole pages. -/
structure Follows (arch : Arch) (memory : Memory) (limit start : Nat)
    (state : MultibootMemoryMapPageFrameEnumerator) : Prop where
  same : state.limit = limit
  comes : Comes arch memory limit start state.entry
  bounded : state.remainingLengthOfEntry < arch.modulus
  residue : state.remainingLengthOfEntry % pageSize = lengthLow memory state.entry % pageSize

theorem follows_atEntry : Follows arch memory limit start (atEntry memory limit start) where
  same := rfl
  comes := .refl
  bounded := load_word_lt _
  residue := rfl

section
variable (follows : Follows arch memory limit start state)
include follows

theorem Follows.take :
    Follows arch memory limit start (state.takePageFrame arch).2 where
  same := follows.same
  comes := follows.comes
  bounded := arch.sub_lt _ _
  residue := (sub_pageSize_mod arch _).trans follows.residue

theorem Follows.arrive (found : successor arch memory limit state.entry = some entry) :
    Follows arch memory limit start ((atEntry memory limit entry).takePageFrame arch).2 where
  same := rfl
  comes := follows.comes.tail found
  bounded := arch.sub_lt _ _
  residue := sub_pageSize_mod arch _

theorem Follows.step (yields : Yields arch memory state next) :
    Follows arch memory limit start next := by
  rcases yields.cases with ⟨_, same⟩ | ⟨entry, _, found, same⟩
  · exact same ▸ follows.take
  · rw [follows.same] at found same
    exact same ▸ follows.arrive found

end

theorem Follows.of_mem (follows : Follows arch memory limit start enumerator)
    (member : state ∈ trace arch memory calls enumerator) : Follows arch memory limit start state := by
  induction calls generalizing enumerator with
  | zero =>
    rw [List.mem_singleton.mp member]
    exact follows
  | succ calls ih =>
    rcases mem_trace_succ.mp member with same | ⟨next, yields, later⟩
    · exact same ▸ follows
    · exact ih (follows.step yields) later

/-- The loop uses up the whole pages of an entry. -/
theorem Follows.drain (follows : Follows arch memory limit start state)
    (member : state ∈ trace arch memory calls enumerator) :
    ∃ more, ∃ short ∈ trace arch memory more enumerator, Follows arch memory limit start short ∧
      short.entry = state.entry ∧ short.remainingLengthOfEntry < pageSize := by
  -- each round leaves one page less
  generalize left : state.remainingLengthOfEntry / pageSize = count
  induction count generalizing state calls with
  | zero =>
    refine ⟨calls, state, member, follows, rfl, ?_⟩
    exact (Nat.div_eq_zero_iff_lt (by decide)).mp left
  | succ count ih =>
    have room : pageSize ≤ state.remainingLengthOfEntry := by
      simp only [pageSize] at left ⊢
      omega
    have less : arch.sub state.remainingLengthOfEntry pageSize = state.remainingLengthOfEntry - pageSize :=
      Arch.sub_of_le room follows.bounded
    have yields : Yields arch memory state (state.takePageFrame arch).2 :=
      ⟨hasNext_of_room room, _, getNext_of_room room⟩
    have fewer : (state.takePageFrame arch).2.remainingLengthOfEntry / pageSize = count := by
      simp only [takePageFrame, less]
      simp only [pageSize] at left ⊢
      omega
    obtain ⟨more, rest⟩ := ih follows.take (trace_extends member yields) fewer
    exact ⟨more, rest⟩

/-- The loop comes to every entry to which the walk comes, unless it stays at an earlier one. -/
theorem reaches_entry (comes : Comes arch memory limit start entry) :
    ∃ calls, ∃ state ∈ trace arch memory calls (atEntry memory limit start),
      Follows arch memory limit start state ∧ state.entry = entry ∧
        state.remainingLengthOfEntry < pageSize := by
  induction comes with
  | refl => exact follows_atEntry.drain (mem_trace_self 0)
  | @tail _ next _ found ih =>
    obtain ⟨calls, state, member, follows, place, short⟩ := ih
    rw [← place] at found
    have yields : Yields arch memory state ((atEntry memory limit next).takePageFrame arch).2 := by
      rw [← follows.same] at found ⊢
      obtain ⟨more, result⟩ := getNext_of_successor short found
      exact ⟨more, _, result⟩
    exact (follows.arrive found).drain (trace_extends member yields)

theorem Follows.remaining_eq_zero_iff (follows : Follows arch memory limit start state)
    (short : state.remainingLengthOfEntry < pageSize) :
    state.remainingLengthOfEntry = 0 ↔ WholePages memory state.entry := by
  rw [WholePages, ← follows.residue, Nat.mod_eq_of_lt short]

theorem progresses_iff : Progresses arch memory (atEntry memory limit start) ↔
    ∀ entry, Comes arch memory limit start entry → successor arch memory limit entry = none →
      WholePages memory entry := by
  constructor
  · intro progresses entry comes exhausted
    obtain ⟨calls, state, member, follows, rfl, short⟩ := reaches_entry comes
    refine (follows.remaining_eq_zero_iff short).mp (Nat.eq_zero_of_not_pos fun positive => ?_)
    have returns := progresses calls state member (if_pos positive)
    rw [getNext_exhausted short (follows.same ▸ exhausted)] at returns
    cases returns
  · intro whole calls state member more
    have follows := follows_atEntry.of_mem member
    rcases Nat.lt_or_ge state.remainingLengthOfEntry pageSize with short | room
    · cases found : successor arch memory state.limit state.entry with
      | none =>
        have joined : (state.nextValidEntry arch memory).join = none := found
        have exhausted := (follows.remaining_eq_zero_iff short).mpr
          (whole state.entry follows.comes (follows.same ▸ found))
        rw [hasNext, if_neg (by omega)] at more
        rcases Option.join_eq_none_iff.mp joined with endless | nothing
        · simp [endless] at more
        · simp [nothing] at more
      | some entry => exact Option.isSome_of_eq_some (getNext_of_successor short found).2
    · exact Option.isSome_of_eq_some (getNext_of_room room)

theorem loopEnds_iff : LoopEnds arch memory (atEntry memory limit start) ↔
    ∃ entry, Comes arch memory limit start entry ∧
      getNextValidEntry arch memory limit arch.modulus entry = some none ∧ WholePages memory entry := by
  constructor
  · rintro ⟨calls, state, member, ended⟩
    have follows := follows_atEntry.of_mem member
    unfold hasNext at ended
    split at ended
    · cases ended
    · rename_i empty
      have short : state.remainingLengthOfEntry < pageSize := Nat.lt_of_not_le fun room => empty (by
        simp only [pageSize] at room
        omega)
      refine ⟨state.entry, follows.comes, ?_,
        (follows.remaining_eq_zero_iff short).mp (Nat.eq_zero_of_not_pos empty)⟩
      obtain ⟨found, valid, none⟩ := Option.map_eq_some_iff.mp ended
      rw [nextValidEntry, follows.same, Option.isSome_eq_false_iff, Option.isNone_iff_eq_none] at *
      rw [valid, none]
  · rintro ⟨entry, comes, last, whole⟩
    obtain ⟨calls, state, member, follows, rfl, short⟩ := reaches_entry comes
    refine ⟨calls, state, member, ?_⟩
    have empty := (follows.remaining_eq_zero_iff short).mpr whole
    rw [hasNext, if_neg (by omega), nextValidEntry, follows.same, last]
    rfl

/-- There is one entry at most at which the walk stops. -/
theorem comes_last_unique (comes : Comes arch memory limit start entry)
    (last : successor arch memory limit entry = none) (other : Comes arch memory limit start place)
    (ends : successor arch memory limit place = none) : entry = place := by
  have stays {first second : Nat} (stuck : successor arch memory limit first = none)
      (path : Comes arch memory limit first second) : first = second := by
    rcases path.cases_head with same | ⟨next, found, _⟩
    · exact same
    · cases stuck.symm.trans found
  have single : Relator.RightUnique fun entry next => successor arch memory limit entry = some next :=
    fun _ _ _ left right => Option.some.inj (left.symm.trans right)
  rcases comes.total_of_right_unique single other with there | back
  · exact stays last there
  · exact (stays ends back).symm

theorem LoopEnds.progresses (ends : LoopEnds arch memory (atEntry memory limit start)) :
    Progresses arch memory (atEntry memory limit start) := by
  obtain ⟨entry, comes, last, whole⟩ := loopEnds_iff.mp ends
  have stops : successor arch memory limit entry = none := by rw [successor, last, Option.join_some]
  refine progresses_iff.mpr fun other reached exhausted => ?_
  exact comes_last_unique comes stops reached exhausted ▸ whole

theorem comes_of_mem_successors (member : entry ∈ successors arch memory limit count start) :
    Comes arch memory limit start entry := by
  induction count generalizing start with
  | zero => cases member
  | succ count ih =>
    rw [successors] at member
    cases found : successor arch memory limit start with
    | none => simp [found] at member
    | some next =>
      rw [found] at member
      rcases List.mem_cons.mp member with rfl | later
      · exact .single found
      · exact .head found (ih later)

section
variable {info : MultibootInfo}

/-- `get_next` never fails after a `has_next` that is true if and only if the entry behind
which no other is found is a number of whole pages long. The loop then ends if the search for
another entry does. In a map behind which nothing available is found, that entry is the last
available one. -/
theorem enumeration_ends_iff (constructed : construct arch memory info = some enumerator) :
    (Progresses arch memory enumerator ↔
      ∀ entry, Comes arch memory enumerator.limit enumerator.entry entry →
        successor arch memory enumerator.limit entry = none → WholePages memory entry) ∧
    (Progresses arch memory enumerator ∧ LoopEnds arch memory enumerator ↔
      ∃ entry, Comes arch memory enumerator.limit enumerator.entry entry ∧
        getNextValidEntry arch memory enumerator.limit arch.modulus entry = some none ∧
        WholePages memory entry) ∧
    ∀ first rest, Stored memory enumerator.limit enumerator.entry (first :: rest) →
      getNextValidEntry arch memory enumerator.limit arch.modulus (lastAvailable arch info first rest) =
        some none →
      (Progresses arch memory enumerator ∧ LoopEnds arch memory enumerator ↔
        WholePages memory (lastAvailable arch info first rest)) := by
  obtain ⟨bounded, rfl⟩ := construct_eq constructed
  refine ⟨progresses_iff, ?_, fun first rest stored quiet => ?_⟩
  · rw [and_iff_right_of_imp LoopEnds.progresses]
    exact loopEnds_iff
  · rw [and_iff_right_of_imp LoopEnds.progresses]
    have listed := stored.successors bounded 0
    simp only [Nat.add_zero, successors, List.append_nil, atEntry] at listed
    have comes : Comes arch memory (limitOf arch info) (convertPhysicalToLogicalAddress arch info.mmapAddr)
        (lastAvailable arch info first rest) := by
      rw [lastAvailable, ← listed]
      generalize found : (successors arch memory _ _ _).getLastD _ = last
      rcases List.mem_cons.mp (found ▸ List.getLastD_mem_cons) with same | later
      · exact same ▸ .refl
      · exact comes_of_mem_successors later
    rw [loopEnds_iff]
    constructor
    · rintro ⟨entry, reached, last, whole⟩
      have here : successor arch memory (limitOf arch info) entry = none := by rw [successor, last, Option.join_some]
      have there : successor arch memory (limitOf arch info) (lastAvailable arch info first rest) = none :=
        congrArg Option.join quiet
      exact comes_last_unique reached here comes there ▸ whole
    · intro whole
      exact ⟨_, comes, quiet, whole⟩

theorem enumeration_ends_sample :
    Progresses .i386 sampleMemory ⟨0xC0001000, 0xC00016C0, 0x100000, 0x2800⟩ ∧
      LoopEnds .i386 sampleMemory ⟨0xC0001000, 0xC00016C0, 0x100000, 0x2800⟩ :=
  ((enumeration_ends_iff (by decide +kernel : construct .i386 sampleMemory sampleInfo =
    some ⟨0xC0001000, 0xC00016C0, 0x100000, 0x2800⟩)).2.2 sampleFirst sampleRest
      sample_describes.stored (by decide +kernel)).mpr (by decide +kernel)

/-- The only region of a map is a page and a half long. After its page has been returned,
`has_next` is true because half a page remains, and `get_next` fails. -/
theorem half_page_fails_assertion :
    let memory := memoryWith 0xC0001000 [⟨20, 0x100000, 0x1800, memoryAvailable⟩]
    ∃ start next, construct .i386 memory ⟨2, 24, 0x1000⟩ = some start ∧
      start.getNext .i386 memory = some (0x100000, next) ∧
      next.hasNext .i386 memory = some true ∧ next.getNext .i386 memory = none := by
  refine ⟨⟨0xC0001000, 0xC0001240, 0x100000, 0x1800⟩, ⟨0xC0001000, 0xC0001240, 0x101000, 0x800⟩, ?_⟩
  decide +kernel

end

end MultibootMemoryMapPageFrameEnumerator

end FlapjackOS.Boot
