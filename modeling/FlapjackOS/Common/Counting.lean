import FlapjackOS.Common.SharedPointer
import FlapjackOS.Machine.Runs

/-! The counters of `SharedPointer` count the handles, and every object is deleted by the
operation that removes its last handle. -/

namespace FlapjackOS.Pointers.Pool

open Function Custody Tally Runs

variable {Shared Unique : Type}

/-- The counter that a live `SharedPointer` refers to. -/
def refers (pool : Pool Shared Unique) (handle : Shared) : Option Nat :=
  (pool.shared handle).bind SharedPointer.count

/-- Some handle points to the object. -/
def Referred (pool : Pool Shared Unique) (object : Nat) : Prop :=
  (∃ handle pointer, pool.shared handle = some pointer ∧ pointer.data = some object) ∨
    ∃ handle pointer, pool.unique handle = some pointer ∧ pointer.data = some object

/-- Each counter counts the handles that refer to it; each object that was created has been
deleted if and only if no handle refers to it, and at most once. -/
structure Sound [Fintype Shared] (pool : Pool Shared Unique) : Prop where
  counted : Counted pool.refers pool.counters
  deleted_iff : ∀ object < pool.objects, object ∈ pool.deleted ↔ ¬ pool.Referred object
  once : pool.deleted.Nodup

/-- A `UniquePointer` deletes its object. -/
abbrev Plain (entry : Option (UniquePointer Nat)) : Prop := ∀ pointer, entry = some pointer → pointer.shouldLeak = false

section
variable {pool : Pool Shared Unique}

theorem idle_shared (dead : pool.shared handle = none) : pool.refers handle = none := by
  simp [refers, dead]

theorem deletes_putUnique [DecidableEq Unique] (deletes : ∀ owner, Plain (pool.unique owner))
    (plain : Plain changed) : ∀ other, Plain ((pool.putUnique owner changed).unique other) :=
  (forall_update_iff pool.unique fun _ => Plain).mpr ⟨plain, fun other _ => deletes other⟩

end

section
variable [DecidableEq Shared] {pool : Pool Shared Unique} {target : Nat → Option Nat} {handle : Shared}

theorem refers_putShared (pool : Pool Shared Unique) (handle : Shared)
    (pointer : Option SharedPointer) :
    (pool.putShared handle pointer).refers =
      update pool.refers handle (pointer.bind SharedPointer.count) :=
  comp_update (Option.bind · SharedPointer.count) pool.shared handle pointer

theorem putShared_putShared (pool : Pool Shared Unique) (handle : Shared)
    (first second : Option SharedPointer) :
    (pool.putShared handle first).putShared handle second = pool.putShared handle second := by
  simp [putShared]

/-- The handle is dead, or it is the null pointer. -/
def Blank (pointer : Option SharedPointer) : Prop := pointer = none ∨ pointer = some .null

theorem Blank.count {pointer : Option SharedPointer} (blank : Blank pointer) :
    pointer.bind SharedPointer.count = none := by
  rcases blank with rfl | rfl <;> rfl

/-- A handle points to what its counter stands for. -/
abbrev Points (target : Nat → Option Nat) (entry : Option SharedPointer) : Prop :=
  ∀ pointer, entry = some pointer → pointer.data = pointer.count.bind target

theorem pointed_putShared (pointed : ∀ handle, Points target (pool.shared handle)) (points : Points target changed) :
    ∀ other, Points target ((pool.putShared handle changed).shared other) :=
  (forall_update_iff pool.shared fun _ => Points target).mpr ⟨points, fun other _ => pointed other⟩

theorem Blank.points (blank : Blank changed) : Points target changed := by
  intro pointer same
  rcases blank with rfl | rfl
  · cases same
  · cases same
    rfl

theorem idle_putNull : (pool.putShared handle (some .null)).refers handle = none := by
  simp [refers_putShared, SharedPointer.null]

theorem takeUnique_putNull [DecidableEq Unique] (pool : Pool Shared Unique) (handle : Shared)
    (owner : Unique) :
    (pool.putShared handle (some .null)).takeUnique handle owner = pool.takeUnique handle owner := by
  cases found : pool.unique owner <;>
    simp [takeUnique, putShared, found, newCounter, putCounter]

end

section
variable [Fintype Shared] {pool after : Pool Shared Unique} {target : Nat → Option Nat}
  {handle source : Shared} {owner other : Unique} {pointer this : SharedPointer}

/-- An object is held by the counter whose handles point to it, or by a `UniquePointer`. -/
def holds (pool : Pool Shared Unique) (target : Nat → Option Nat) : Nat ⊕ Unique → Option Nat :=
  Sum.elim (shares pool.refers target) (fun handle => (pool.unique handle).bind UniquePointer.data)

/-- The invariant, for the objects that the counters stand for. -/
structure Tracked (pool : Pool Shared Unique) (target : Nat → Option Nat) : Prop where
  counted : Counted pool.refers pool.counters
  known : ∀ counter, Held pool.refers counter → counter < pool.allocated
  pointed : ∀ handle pointer, pool.shared handle = some pointer →
    pointer.data = pointer.count.bind target
  deletes : ∀ handle pointer, pool.unique handle = some pointer → pointer.shouldLeak = false
  exclusive : Exclusive (pool.holds target)
  balanced : Balanced (pool.holds target) (List.range pool.objects).reverse pool.deleted

/-- The invariant of a pool whose references and holdings are known. -/
theorem Tracked.of {references : Shared → Option Nat} {holdings : Nat ⊕ Unique → Option Nat}
    (refers : pool.refers = references) (holds : pool.holds target = holdings)
    (counted : Counted references pool.counters)
    (known : ∀ counter, Held references counter → counter < pool.allocated)
    (pointed : ∀ handle, Points target (pool.shared handle))
    (deletes : ∀ handle, Plain (pool.unique handle)) (exclusive : Exclusive holdings)
    (balanced : Balanced holdings (List.range pool.objects).reverse pool.deleted) :
    Tracked pool target := by
  subst refers holds
  exact ⟨counted, known, pointed, deletes, exclusive, balanced⟩

theorem tracked_start : Tracked (start : Pool Shared Unique) (fun _ => none) := by
  have nothing : ∀ holder, (start : Pool Shared Unique).holds (fun _ => none) holder = none := by
    rintro (counter | owner)
    · simp [holds, shares]
    · rfl
  have unheld : ∀ counter, tally (start : Pool Shared Unique).refers counter = 0 := by
    intro counter
    rw [tally_eq_zero_iff]
    rintro ⟨handle, ⟨⟩⟩
  refine ⟨fun counter => ?_, ?_, ?_, ?_, ?_, ?_, ?_⟩
  · rw [unheld, if_pos rfl]
    rfl
  · rintro counter ⟨handle, ⟨⟩⟩
  · rintro handle pointer ⟨⟩
  · rintro handle pointer ⟨⟩
  · intro first second object held
    cases (nothing first).symm.trans held
  · rintro object ⟨holder, held⟩
    cases (nothing holder).symm.trans held
  · intro object _
    rfl

theorem Tracked.referred_iff (tracked : Tracked pool target) (object : Nat) :
    pool.Referred object ↔ Held (pool.holds target) object := by
  constructor
  · rintro (⟨handle, pointer, found, points⟩ | ⟨owner, pointer, found, points⟩)
    · have data := tracked.pointed handle pointer found
      rw [points] at data
      obtain ⟨counter, counts, stands⟩ := Option.bind_eq_some_iff.mp data.symm
      have positive : tally pool.refers counter ≠ 0 := by
        rw [ne_eq, tally_eq_zero_iff, not_not]
        exact ⟨handle, by simp [refers, found, counts]⟩
      exact ⟨.inl counter, by simp [holds, shares, positive, stands]⟩
    · exact ⟨.inr owner, by simp [holds, found, points]⟩
  · rintro ⟨counter | owner, held⟩
    · simp only [holds, Sum.elim_inl, shares] at held
      split at held
      · cases held
      · rename_i positive
        rw [tally_eq_zero_iff, not_not] at positive
        obtain ⟨handle, refers⟩ := positive
        obtain ⟨pointer, found, counts⟩ := Option.bind_eq_some_iff.mp refers
        refine .inl ⟨handle, pointer, found, ?_⟩
        rw [tracked.pointed handle pointer found, counts, Option.bind_some, held]
    · obtain ⟨pointer, found, points⟩ := Option.bind_eq_some_iff.mp held
      exact .inr ⟨owner, pointer, found, points⟩

theorem range_succ_reverse (objects : Nat) :
    (List.range (objects + 1)).reverse = objects :: (List.range objects).reverse := by
  rw [List.range_succ, List.reverse_append]
  rfl

theorem Tracked.sound (tracked : Tracked pool target) : Sound pool where
  counted := tracked.counted
  deleted_iff object created := by
    rw [tracked.referred_iff, ← List.count_pos_iff]
    have obtained : (List.range pool.objects).reverse.count object = 1 := by
      rw [List.count_reverse, List.count_range, if_pos created]
    by_cases held : Held (pool.holds target) object
    · have := tracked.balanced.held object held
      simp only [held, not_true, iff_false]
      omega
    · have := tracked.balanced.settled object held
      simp only [held, not_false_iff, iff_true]
      omega
  once := by
    rw [List.nodup_iff_count_le_one]
    intro object
    have bound := List.nodup_iff_count_le_one.mp (@List.nodup_range pool.objects) object
    rw [← List.count_reverse] at bound
    by_cases held : Held (pool.holds target) object
    · have := tracked.balanced.held object held
      omega
    · have := tracked.balanced.settled object held
      omega

theorem idle_unique (dead : pool.unique owner = none) : pool.holds target (.inr owner) = none := by
  simp [holds, dead]

section
variable (tracked : Tracked pool target)
include tracked

theorem Tracked.unused : ¬ Held pool.refers pool.allocated :=
  fun held => (tracked.known _ held).false

theorem Tracked.points (found : pool.shared source = some this) : Points target (some this) := by
  rw [← found]
  exact tracked.pointed source

theorem Tracked.holds_unused : pool.holds target (.inl pool.allocated) = none := by
  simp [holds, shares, tally_eq_zero_iff.mpr tracked.unused]

theorem Tracked.unheld : ¬ Held (pool.holds target) pool.objects := by
  intro held
  have obtained := tracked.balanced.held _ held
  rw [List.count_reverse, List.count_range, if_neg (Nat.lt_irrefl _)] at obtained
  omega

end

theorem holds_putUnique [DecidableEq Unique] (pool : Pool Shared Unique) (owner : Unique)
    (pointer : Option (UniquePointer Nat)) :
    (pool.putUnique owner pointer).holds target =
      update (pool.holds target) (.inr owner) (pointer.bind UniquePointer.data) := by
  rw [holds, holds, Sum.update_elim_inr]
  exact congrArg _ (comp_update (Option.bind · UniquePointer.data) pool.unique owner pointer)

/-- The `UniquePointer` is dead or null. -/
def BlankUnique (pointer : Option (UniquePointer Nat)) : Prop := pointer = none ∨ pointer = some .null

theorem BlankUnique.data (blank : BlankUnique changed) :
    changed.bind UniquePointer.data = none := by
  rcases blank with rfl | rfl <;> rfl

theorem BlankUnique.plain (blank : BlankUnique changed) : Plain changed := by
  intro pointer same
  rcases blank with rfl | rfl
  · cases same
  · cases same
    rfl

section
variable [DecidableEq Unique] (tracked : Tracked pool target) (idle : pool.holds target (.inr owner) = none)
include tracked idle

theorem Tracked.putUniqueBlank (blank : BlankUnique changed) :
    Tracked (pool.putUnique owner changed) target := by
  have holds : (pool.putUnique owner changed).holds target = pool.holds target := by
    rw [holds_putUnique, blank.data, update_eq_self_iff, idle]
  exact .of rfl holds tracked.counted tracked.known tracked.pointed
    (deletes_putUnique tracked.deletes blank.plain) tracked.exclusive tracked.balanced

theorem Tracked.uniqueNew :
    Tracked (pool.newObject.1.putUnique owner (some (.ofPointer (some pool.newObject.2)))) target := by
  have holds : (pool.newObject.1.putUnique owner (some (.ofPointer (some pool.newObject.2)))).holds
      target = update (pool.holds target) (.inr owner) (some pool.objects) := by
    rw [holds_putUnique]
    rfl
  refine .of rfl holds tracked.counted tracked.known tracked.pointed ?_
    (tracked.exclusive.acquire tracked.unheld) ?_
  · refine deletes_putUnique tracked.deletes ?_
    rintro pointer ⟨⟩
    rfl
  · exact range_succ_reverse _ ▸ tracked.balanced.acquire idle tracked.unheld

theorem Tracked.moveUnique (apart : other ≠ owner) {pointer : UniquePointer Nat}
    (found : pool.unique other = some pointer) :
    Tracked ((pool.putUnique owner (some pointer)).putUnique other (some .null)) target := by
  have different : (Sum.inr other : Nat ⊕ Unique) ≠ .inr owner := by simpa using apart
  have given : pool.holds target (.inr other) = pointer.data := by simp [Pool.holds, found]
  have holds : ((pool.putUnique owner (some pointer)).putUnique other (some .null)).holds target =
      transfer (pool.holds target) (.inr other) (.inr owner) := by
    rw [holds_putUnique, holds_putUnique, transfer, given]
    rfl
  refine .of rfl holds tracked.counted tracked.known tracked.pointed ?_
    (tracked.exclusive.transfer different) (tracked.balanced.transfer different idle)
  refine deletes_putUnique (deletes_putUnique tracked.deletes ?_) (BlankUnique.plain (.inr rfl))
  rintro pointer ⟨⟩
  exact tracked.deletes other _ found

end

/-- `release_unlocked` of a `UniquePointer` that is to be blank. -/
theorem Tracked.releaseUnique [DecidableEq Unique] (tracked : Tracked pool target) {pointer : UniquePointer Nat}
    (found : pool.unique owner = some pointer)
    (blank : BlankUnique changed) :
    Tracked ((pool.delete pointer.release).putUnique owner changed) target := by
  have released : pointer.release = pointer.data.toList := by
    simp [UniquePointer.release, tracked.deletes owner pointer found]
  have given : pool.holds target (.inr owner) = pointer.data := by simp [Pool.holds, found]
  cases points : pointer.data with
  | none =>
    rw [released, points]
    exact tracked.putUniqueBlank (given.trans points) blank
  | some object =>
    have holds : ((pool.delete pointer.release).putUnique owner changed).holds target =
        update (pool.holds target) (.inr owner) none := by
      rw [holds_putUnique, blank.data]
      rfl
    refine .of rfl holds tracked.counted tracked.known tracked.pointed
      (deletes_putUnique tracked.deletes blank.plain) tracked.exclusive.release ?_
    rw [released, points]
    exact tracked.balanced.release tracked.exclusive (given.trans points)

/-- The operation succeeds and keeps the invariant. -/
def Proceeds (result : Option (Pool Shared Unique)) : Prop := ∃ after target, result = some after ∧ Tracked after target

theorem Tracked.moveAssignUnique [DecidableEq Unique] (tracked : Tracked pool target)
    {replaced given : UniquePointer Nat}
    (found : pool.unique owner = some replaced) (foundSource : pool.unique other = some given) :
    Proceeds (pool.moveAssignUnique owner other) := by
  by_cases same : owner = other
  · exact ⟨pool, target, by simp [Pool.moveAssignUnique, foundSource, same], tracked⟩
  · have blank := tracked.releaseUnique found (.inr rfl)
    have idle : ((pool.delete replaced.release).putUnique owner (some .null)).holds target
        (.inr owner) = none := by
      simp [holds_putUnique, UniquePointer.null, UniquePointer.ofPointer]
    have kept : ((pool.delete replaced.release).putUnique owner (some .null)).unique other =
        some given := by
      simpa [putUnique, delete, Ne.symm same] using foundSource
    have result := blank.moveUnique idle (Ne.symm same) kept
    refine ⟨_, target, by simp [Pool.moveAssignUnique, found, foundSource, same]; rfl, ?_⟩
    simpa [Pool.assignUnique, putUnique] using result

section
variable [DecidableEq Shared]

section
variable (tracked : Tracked pool target)
include tracked

/-- The other handles point to the same objects if a new counter stands for another object. -/
theorem Tracked.pointed_first (object : Option Nat) : ∀ other,
    Points (update target pool.allocated object)
      ((pool.putShared handle (some { data := object, count := some pool.allocated })).shared other) := by
  refine pointed_putShared (fun other pointer found => ?_) ?_
  · rw [tracked.pointed other pointer found]
    cases counts : pointer.count with
    | none => rfl
    | some counter =>
      have owned : pool.refers other = some counter := by simp [refers, found, counts]
      have different := (tracked.known counter ⟨other, owned⟩).ne
      simp [update_of_ne different]
  · rintro pointer ⟨⟩
    simp

section
variable (idle : pool.refers handle = none)
include idle

theorem Tracked.putBlank (blank : Blank changed) :
    Tracked (pool.putShared handle changed) target := by
  have same : (pool.putShared handle changed).refers = pool.refers := by
    rw [refers_putShared, blank.count, update_eq_self_iff, idle]
  have kept : (pool.putShared handle changed).holds target = pool.holds target := by
    rw [holds, same]
    rfl
  refine ⟨same ▸ tracked.counted, same ▸ tracked.known, ?_, tracked.deletes, kept ▸ tracked.exclusive,
    kept ▸ tracked.balanced⟩
  exact pointed_putShared tracked.pointed blank.points

theorem Tracked.copy (found : pool.shared source = some this) :
    ∃ after, (pool.putShared handle (some this)).acquireUnlocked this = some after ∧
      Tracked after target := by
  cases counts : this.count with
  | none =>
    have blank : this = .null := by
      obtain ⟨data, count⟩ := this
      have := tracked.pointed source _ found
      simp_all [SharedPointer.null]
    refine ⟨_, by simp [acquireUnlocked, counts]; rfl, tracked.putBlank idle (.inr ?_)⟩
    rw [blank]
  | some counter =>
    have owned : pool.refers source = some counter := by simp [refers, found, counts]
    obtain ⟨count, rest, live⟩ := tracked.counted.live owned
    let after := (pool.putShared handle (some this)).putCounter counter (some (count + 1 + 1))
    have refers : after.refers = update pool.refers handle (some counter) := by
      have := refers_putShared pool handle (some this)
      rw [Option.bind_some, counts] at this
      exact this
    have holds : after.holds target = pool.holds target := by
      rw [Pool.holds, refers, shares_join idle ⟨source, owned⟩]
      rfl
    have counted : Counted (update pool.refers handle (some counter)) after.counters := by
      have joined := tracked.counted.join idle counter
      rw [rest] at joined
      exact joined
    have known : ∀ other, Held (update pool.refers handle (some counter)) other →
        other < pool.allocated := by
      intro other held
      rcases (held_acquire idle).mp held with rfl | earlier
      · exact tracked.known other ⟨source, owned⟩
      · exact tracked.known other earlier
    refine ⟨after, ?_, .of refers holds counted known (pointed_putShared tracked.pointed (tracked.points found))
      tracked.deletes tracked.exclusive tracked.balanced⟩
    have stored : (pool.putShared handle (some this)).counters counter = some (count + 1 : Int) := live
    simp [acquireUnlocked, counts, stored, after]

theorem Tracked.move (apart : source ≠ handle) (found : pool.shared source = some this) :
    Tracked ((pool.putShared handle (some this)).putShared source (some .null)) target := by
  have refers : ((pool.putShared handle (some this)).putShared source (some .null)).refers =
      transfer pool.refers source handle := by
    rw [refers_putShared, refers_putShared, transfer]
    simp [Pool.refers, found, SharedPointer.null]
  have holds : ((pool.putShared handle (some this)).putShared source (some .null)).holds target =
      pool.holds target := by
    rw [Pool.holds, refers, shares_transfer apart idle]
    rfl
  refine .of refers holds (tracked.counted.transfer apart idle) ?_
    (pointed_putShared (pointed_putShared tracked.pointed (tracked.points found)) (Blank.points (.inr rfl)))
    tracked.deletes tracked.exclusive tracked.balanced
  exact fun counter held => tracked.known counter ((held_transfer apart idle).mp held)

/-- A new counter counts its only handle. -/
theorem Tracked.first :
    Counted (update pool.refers handle (some pool.allocated))
        (update pool.counters pool.allocated (some 1)) ∧
      ∀ counter, Held (update pool.refers handle (some pool.allocated)) counter →
        counter < pool.allocated + 1 := by
  have joined := tracked.counted.join idle pool.allocated
  rw [tally_eq_zero_iff.mpr tracked.unused] at joined
  refine ⟨joined, fun counter held => ?_⟩
  rcases (held_acquire idle).mp held with rfl | earlier
  · exact Nat.lt_succ_self _
  · exact Nat.lt_succ_of_lt (tracked.known counter earlier)

theorem Tracked.constructNew [DecidableEq Unique] :
    Tracked (pool.newObject.1.constructShared handle (some pool.newObject.2))
      (update target pool.allocated (some pool.objects)) := by
  obtain ⟨counted, known⟩ := tracked.first idle
  let after := pool.newObject.1.constructShared handle (some pool.newObject.2)
  have refers : after.refers = update pool.refers handle (some pool.allocated) :=
    refers_putShared pool handle (some { data := some pool.objects, count := some pool.allocated })
  have holds : after.holds (update target pool.allocated (some pool.objects)) =
      update (pool.holds target) (.inl pool.allocated) (some pool.objects) := by
    rw [Pool.holds, refers, shares_first idle, ← Sum.update_elim_inl]
    rfl
  refine .of refers holds counted known (tracked.pointed_first _) tracked.deletes
    (tracked.exclusive.acquire tracked.unheld) ?_
  exact range_succ_reverse _ ▸ tracked.balanced.acquire tracked.holds_unused tracked.unheld

end

/-- `release_unlocked` on a handle that is to be blank. The object is deleted with the last
handle. -/
theorem Tracked.release [DecidableEq Unique] (found : pool.shared handle = some this)
    (blank : Blank changed) :
    ∃ after, pool.releaseUnlocked this = some after ∧
      Tracked (after.putShared handle changed) target ∧ after.unique = pool.unique ∧
      after.shared = pool.shared := by
  cases counts : this.count with
  | none =>
    have idle : pool.refers handle = none := by simp [refers, found, counts]
    exact ⟨pool, by simp [releaseUnlocked, counts], tracked.putBlank idle blank, rfl, rfl⟩
  | some counter =>
    have owned : pool.refers handle = some counter := by simp [refers, found, counts]
    obtain ⟨count, rest, live⟩ := tracked.counted.live owned
    have counted := tracked.counted.drop owned count rest
    have known : ∀ counter, Held (update pool.refers handle none) counter → counter < pool.allocated :=
      fun counter held => tracked.known counter (held_of_drop held)
    have dropped : shares (update pool.refers handle none) target = _ := shares_drop owned
    have pointed : ∀ handle, Points target (pool.shared handle) := tracked.pointed
    have refers (after : Pool Shared Unique) (same : after.refers = pool.refers) :
        (after.putShared handle changed).refers = update pool.refers handle none := by
      rw [refers_putShared, blank.count, same]
    by_cases last : count = 0
    · subst last
      let after := (pool.delete this.data.toList).putCounter counter none
      have holds : (after.putShared handle changed).holds target =
          update (pool.holds target) (.inl counter) none := by
        rw [Pool.holds, refers after rfl, dropped, if_pos rest, ← Sum.update_elim_inl]
        rfl
      have held : pool.holds target (.inl counter) = this.data := by
        simp [Pool.holds, shares, rest, tracked.pointed handle this found, counts]
      refine ⟨after, by simp [releaseUnlocked, counts, live, after],
        .of (refers after rfl) holds counted known (pointed_putShared pointed blank.points) tracked.deletes
          tracked.exclusive.release ?_, rfl, rfl⟩
      have deleted : (after.putShared handle changed).deleted = this.data.toList ++ pool.deleted := rfl
      rw [deleted]
      cases points : this.data with
      | none =>
        rw [points] at held
        rw [update_eq_self_iff.mpr held.symm]
        exact tracked.balanced
      | some object => exact tracked.balanced.release tracked.exclusive (held.trans points)
    · let after := pool.putCounter counter (some count)
      have holds : (after.putShared handle changed).holds target = pool.holds target := by
        rw [Pool.holds, refers after rfl, dropped, if_neg (by omega)]
        rfl
      rw [if_neg last] at counted
      exact ⟨after, by simp [releaseUnlocked, counts, live, after, last],
        .of (refers after rfl) holds counted known (pointed_putShared pointed blank.points) tracked.deletes
          tracked.exclusive tracked.balanced, rfl, rfl⟩

end

variable [DecidableEq Unique]

/-- The object of a `UniquePointer` is handed over to a blank handle with a new counter. -/
theorem Tracked.take (tracked : Tracked pool target) (idle : pool.refers handle = none)
    {pointer : UniquePointer Nat} (found : pool.unique owner = some pointer) :
    Proceeds (pool.takeUnique handle owner) := by
  obtain ⟨counted, known⟩ := tracked.first idle
  let before := pool.newCounter.1.putShared handle
    (some { data := pointer.data, count := some pool.allocated })
  have refers : before.refers = update pool.refers handle (some pool.allocated) :=
    refers_putShared pool handle (some { data := pointer.data, count := some pool.allocated })
  have given : pool.holds target (.inr owner) = pointer.data := by simp [Pool.holds, found]
  have holds : (before.putUnique owner (some .null)).holds (update target pool.allocated pointer.data) =
      transfer (pool.holds target) (.inr owner) (.inl pool.allocated) := by
    rw [holds_putUnique, Pool.holds, refers, shares_first idle, ← Sum.update_elim_inl, transfer, given]
    rfl
  have taken : pool.takeUnique handle owner = some (before.putUnique owner (some .null)) := by
    simp [takeUnique, found, assignUnique, delete, UniquePointer.release, UniquePointer.setShouldLeak,
      before]
    rfl
  refine ⟨_, _, taken, .of refers holds counted known (tracked.pointed_first _) ?_
    (tracked.exclusive.transfer Sum.inr_ne_inl)
    (tracked.balanced.transfer Sum.inr_ne_inl tracked.holds_unused)⟩
  exact deletes_putUnique tracked.deletes (BlankUnique.plain (.inr rfl))

section
variable (tracked : Tracked pool target)
include tracked

theorem Tracked.copyAssign (found : pool.shared handle = some this)
    (foundSource : pool.shared source = some pointer) :
    Proceeds (pool.copyAssign handle source) := by
  by_cases same : handle = source
  · exact ⟨pool, target, by simp [Pool.copyAssign, foundSource, same], tracked⟩
  · obtain ⟨released, releases, blank, _, shared⟩ := tracked.release found (.inr rfl)
    have kept : (released.putShared handle (some .null)).shared source = some pointer := by
      simpa [putShared, Ne.symm same, shared] using foundSource
    obtain ⟨after, acquires, result⟩ := blank.copy idle_putNull kept
    rw [putShared_putShared] at acquires
    exact ⟨after, target, by simp [Pool.copyAssign, found, foundSource, same, releases, acquires], result⟩

theorem Tracked.moveAssign (found : pool.shared handle = some this)
    (foundSource : pool.shared source = some pointer) :
    Proceeds (pool.moveAssign handle source) := by
  by_cases same : handle = source
  · exact ⟨pool, target, by simp [Pool.moveAssign, foundSource, same], tracked⟩
  · obtain ⟨released, releases, blank, _, shared⟩ := tracked.release found (.inr rfl)
    have kept : (released.putShared handle (some .null)).shared source = some pointer := by
      simpa [putShared, Ne.symm same, shared] using foundSource
    have result := blank.move idle_putNull (Ne.symm same) kept
    rw [putShared_putShared] at result
    exact ⟨_, target, by simp [Pool.moveAssign, found, foundSource, same, releases], result⟩

theorem Tracked.assignUnique (found : pool.shared handle = some this) {given : UniquePointer Nat}
    (foundOwner : pool.unique owner = some given) :
    Proceeds (pool.assignFromUnique handle owner) := by
  obtain ⟨released, releases, blank, unique, _⟩ := tracked.release found (.inr rfl)
  have kept : (released.putShared handle (some .null)).unique owner = some given := by
    rw [putShared, unique, foundOwner]
  obtain ⟨after, target', takes, result⟩ := blank.take idle_putNull kept
  rw [takeUnique_putNull] at takes
  exact ⟨after, target', by simp [assignFromUnique, found, releases, takes], result⟩

theorem Tracked.step {action : Action Shared Unique} (possible : pool.Possible action) :
    Proceeds (pool.step action) := by
  cases action <;> simp only [Possible, Option.ne_none_iff_exists'] at possible
  case sharedNull handle => exact ⟨_, target, rfl, tracked.putBlank (idle_shared possible) (.inr rfl)⟩
  case sharedNew handle => exact ⟨_, _, rfl, tracked.constructNew (idle_shared possible)⟩
  case sharedCopy handle source =>
    obtain ⟨dead, pointer, found⟩ := possible
    obtain ⟨after, acquires, result⟩ := tracked.copy (idle_shared dead) found
    exact ⟨after, target, by simp [Pool.step, copyConstruct, found, acquires], result⟩
  case sharedMove handle source =>
    obtain ⟨dead, pointer, found⟩ := possible
    have apart : source ≠ handle := by
      rintro rfl
      cases dead.symm.trans found
    refine ⟨_, target, by simp [Pool.step, moveConstruct, found]; rfl, ?_⟩
    exact tracked.move (idle_shared dead) apart found
  case sharedTake handle owner =>
    obtain ⟨dead, pointer, found⟩ := possible
    exact tracked.take (idle_shared dead) found
  case copyAssign handle source =>
    obtain ⟨⟨this, found⟩, pointer, foundSource⟩ := possible
    exact tracked.copyAssign found foundSource
  case moveAssign handle source =>
    obtain ⟨⟨this, found⟩, pointer, foundSource⟩ := possible
    exact tracked.moveAssign found foundSource
  case assignUnique handle owner =>
    obtain ⟨⟨this, found⟩, pointer, foundOwner⟩ := possible
    exact tracked.assignUnique found foundOwner
  case destroyShared handle =>
    obtain ⟨this, found⟩ := possible
    obtain ⟨released, releases, result, _⟩ := tracked.release found (.inl rfl)
    exact ⟨_, target, by simp [Pool.step, destroyShared, found, releases], result⟩
  case uniqueNull owner => exact ⟨_, target, rfl, tracked.putUniqueBlank (idle_unique possible) (.inr rfl)⟩
  case uniqueNew owner => exact ⟨_, target, rfl, tracked.uniqueNew (idle_unique possible)⟩
  case uniqueMove owner other =>
    obtain ⟨dead, pointer, found⟩ := possible
    have apart : other ≠ owner := by
      rintro rfl
      cases dead.symm.trans found
    refine ⟨_, target, by simp [Pool.step, moveConstructUnique, found]; rfl, ?_⟩
    exact tracked.moveUnique (idle_unique dead) apart found
  case moveAssignUnique owner other =>
    obtain ⟨⟨this, found⟩, pointer, foundSource⟩ := possible
    exact tracked.moveAssignUnique found foundSource
  case destroyUnique owner =>
    obtain ⟨this, found⟩ := possible
    refine ⟨_, target, by simp [Pool.step, destroyUnique, found]; rfl, ?_⟩
    exact tracked.releaseUnique found (.inl rfl)

end

/-- The invariant of all runs. -/
def Tracking (pool : Pool Shared Unique) : Prop := ∃ target, Tracked pool target

end

end

/-- In every state that a program reaches, every counter counts the handles that refer to it, and
the objects that have been deleted, each of them once, are those that no handle refers to. -/
theorem counting_sound [Fintype Shared] [DecidableEq Shared] [DecidableEq Unique]
    (actions : List (Action Shared Unique)) (possible : Legal step Possible start actions) :
    Always step Sound start actions := by
  have begun : Tracking (start : Pool Shared Unique) := ⟨_, tracked_start⟩
  refine always_of_legal ?_ ?_ possible begun
  · rintro pool ⟨target, tracked⟩
    exact tracked.sound
  · rintro pool action ⟨target, tracked⟩ here
    obtain ⟨after, target', stepped, result⟩ := tracked.step here
    exact ⟨after, stepped, target', result⟩

/-- Two handles share an object that a `UniquePointer` gave up, and lose it again. -/
theorem counting_sound_sample :
    Always step Sound (start : Pool (Fin 2) (Fin 1))
      [.uniqueNew 0, .sharedTake 0 0, .sharedCopy 1 0, .copyAssign 1 1, .destroyShared 0,
        .destroyShared 1, .destroyUnique 0] := by
  exact counting_sound _ (by decide +kernel)

end FlapjackOS.Pointers.Pool
