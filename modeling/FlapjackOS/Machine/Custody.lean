import Mathlib.Data.Finset.Basic
import Mathlib.Data.List.Count
import Mathlib.Logic.Function.Basic

/-! Resources and their holders. Of the resources that are free to begin with each
is either still free or held by exactly one holder. -/

namespace FlapjackOS.Custody

open Function

variable {Holder Resource : Type} {holds : Holder → Option Resource} {a b : Holder}
  {r s : Resource} {initial free : Finset Resource} {obtained released : List Resource}

def Held (holds : Holder → Option Resource) (r : Resource) : Prop := ∃ a, holds a = some r

def Exclusive (holds : Holder → Option Resource) : Prop :=
  ∀ a b r, holds a = some r → holds b = some r → a = b

/-- The resources that are free are those that were free initially and that nobody
holds. Every resource that is held was free initially. -/
structure Accounted (initial free : Finset Resource) (holds : Holder → Option Resource) : Prop where
  free_iff : ∀ r, r ∈ free ↔ r ∈ initial ∧ ¬ Held holds r
  held_initial : ∀ r, Held holds r → r ∈ initial
  exclusive : Exclusive holds

theorem Accounted.start (none : ∀ a, holds a = none) : Accounted initial initial holds := by
  have nothing : ∀ r, ¬ Held holds r := by
    rintro r ⟨a, held⟩
    cases (none a).symm.trans held
  refine ⟨fun r => ⟨fun member => ⟨member, nothing r⟩, And.left⟩, fun r held => ?_, ?_⟩
  · exact absurd held (nothing r)
  · intro a b r held
    exact absurd ⟨a, held⟩ (nothing r)

section
variable [DecidableEq Holder]

/-- Pass on what `a` holds to `b`. -/
def transfer (holds : Holder → Option Resource) (a b : Holder) : Holder → Option Resource :=
  update (update holds b (holds a)) a none

theorem of_update (held : update holds a changed holder = some s) :
    holder = a ∧ changed = some s ∨ holder ≠ a ∧ holds holder = some s := by
  by_cases same : holder = a
  · subst same
    exact .inl ⟨rfl, by rwa [update_self] at held⟩
  · exact .inr ⟨same, by rwa [update_of_ne same] at held⟩

theorem held_acquire (idle : holds a = none) :
    Held (update holds a (some r)) s ↔ s = r ∨ Held holds s := by
  constructor
  · rintro ⟨holder, held⟩
    rcases of_update held with ⟨-, same⟩ | ⟨-, earlier⟩
    · exact .inl (Option.some.inj same).symm
    · exact .inr ⟨holder, earlier⟩
  · rintro (rfl | ⟨holder, held⟩)
    · exact ⟨a, update_self ..⟩
    · have different : holder ≠ a := by
        rintro rfl
        cases idle.symm.trans held
      exact ⟨holder, (update_of_ne different ..).trans held⟩

theorem held_of_drop (held : Held (update holds a none) r) : Held holds r := by
  obtain ⟨holder, held⟩ := held
  rcases of_update held with ⟨-, ⟨⟩⟩ | ⟨-, earlier⟩
  exact ⟨holder, earlier⟩

theorem held_release (exclusive : Exclusive holds) (owned : holds a = some r) :
    Held (update holds a none) s ↔ s ≠ r ∧ Held holds s := by
  constructor
  · rintro ⟨holder, held⟩
    rcases of_update held with ⟨-, ⟨⟩⟩ | ⟨different, earlier⟩
    refine ⟨?_, holder, earlier⟩
    rintro rfl
    exact different (exclusive _ _ _ earlier owned)
  · rintro ⟨different, holder, held⟩
    refine ⟨holder, (update_of_ne ?_ ..).trans held⟩
    rintro rfl
    exact different (Option.some.inj (held.symm.trans owned))

theorem transfer_apply (apart : a ≠ b) (holder : Holder) :
    transfer holds a b holder =
      if holder = a then none else if holder = b then holds a else holds holder := by
  unfold transfer
  by_cases first : holder = a
  · simp [first]
  · by_cases second : holder = b
    · subst second
      simp [first]
    · simp [first, second]

theorem held_transfer (apart : a ≠ b) (idle : holds b = none) :
    Held (transfer holds a b) s ↔ Held holds s := by
  constructor
  · rintro ⟨holder, held⟩
    rw [transfer_apply apart] at held
    split at held
    · cases held
    · split at held
      · exact ⟨a, held⟩
      · exact ⟨holder, held⟩
  · rintro ⟨holder, held⟩
    by_cases first : holder = a
    · refine ⟨b, ?_⟩
      rw [transfer_apply apart, if_neg apart.symm, if_pos rfl, ← first, held]
    · have second : holder ≠ b := by
        rintro rfl
        cases idle.symm.trans held
      refine ⟨holder, ?_⟩
      rw [transfer_apply apart, if_neg first, if_neg second, held]

theorem Exclusive.acquire (exclusive : Exclusive holds) (unheld : ¬ Held holds r) :
    Exclusive (update holds a (some r)) := by
  intro first second s held alike
  rcases of_update held with ⟨rfl, new⟩ | ⟨-, old⟩ <;> rcases of_update alike with ⟨rfl, new'⟩ | ⟨-, old'⟩
  · rfl
  · exact absurd ⟨second, old'.trans new.symm⟩ unheld
  · exact absurd ⟨first, old.trans new'.symm⟩ unheld
  · exact exclusive _ _ _ old old'

theorem Exclusive.release (exclusive : Exclusive holds) : Exclusive (update holds a none) := by
  intro first second s held alike
  rcases of_update held with ⟨-, ⟨⟩⟩ | ⟨-, held⟩
  rcases of_update alike with ⟨-, ⟨⟩⟩ | ⟨-, alike⟩
  exact exclusive _ _ _ held alike

theorem Exclusive.transfer (exclusive : Exclusive holds) (apart : a ≠ b) :
    Exclusive (transfer holds a b) := by
  have source : ∀ holder s, Custody.transfer holds a b holder = some s →
      holder ≠ a ∧ holds (if holder = b then a else holder) = some s := by
    intro holder s held
    rw [transfer_apply apart] at held
    split at held
    · cases held
    · rename_i first
      refine ⟨first, ?_⟩
      split <;> simp_all
  intro first second s held alike
  obtain ⟨firstOther, firstHeld⟩ := source _ _ held
  obtain ⟨secondOther, secondHeld⟩ := source _ _ alike
  have same := exclusive _ _ _ firstHeld secondHeld
  split at same <;> split at same <;> simp_all

theorem Accounted.transfer (custody : Accounted initial free holds) (apart : a ≠ b)
    (idle : holds b = none) : Accounted initial free (transfer holds a b) where
  free_iff s := by rw [held_transfer apart idle, custody.free_iff]
  held_initial s held := custody.held_initial s ((held_transfer apart idle).mp held)
  exclusive := custody.exclusive.transfer apart

section
variable [DecidableEq Resource]

theorem Accounted.acquire (custody : Accounted initial free holds) (idle : holds a = none)
    (available : r ∈ free) : Accounted initial (free.erase r) (update holds a (some r)) where
  free_iff s := by
    rw [Finset.mem_erase, custody.free_iff, held_acquire idle, not_or]
    tauto
  held_initial s held := by
    rcases (held_acquire idle).mp held with rfl | earlier
    · exact ((custody.free_iff _).mp available).1
    · exact custody.held_initial s earlier
  exclusive := custody.exclusive.acquire ((custody.free_iff _).mp available).2

theorem Accounted.release (custody : Accounted initial free holds) (owned : holds a = some r) :
    Accounted initial (insert r free) (update holds a none) where
  free_iff s := by
    have known := custody.held_initial r ⟨a, owned⟩
    rw [Finset.mem_insert, custody.free_iff, held_release custody.exclusive owned]
    by_cases same : s = r
    · simp [same, known]
    · simp [same]
  held_initial s held := custody.held_initial s ((held_release custody.exclusive owned).mp held).2
  exclusive := custody.exclusive.release

/-- Every resource has been obtained as often as it has been released, and once
more while it is held. -/
structure Balanced (holds : Holder → Option Resource) (obtained released : List Resource) : Prop where
  held : ∀ r, Held holds r → obtained.count r = released.count r + 1
  settled : ∀ r, ¬ Held holds r → obtained.count r = released.count r

theorem Balanced.acquire (balanced : Balanced holds obtained released) (idle : holds a = none)
    (unheld : ¬ Held holds r) : Balanced (update holds a (some r)) (r :: obtained) released where
  held s held := by
    rw [List.count_cons]
    rcases (held_acquire idle).mp held with rfl | earlier
    · simp [balanced.settled _ unheld]
    · have different : r ≠ s := fun same => unheld (same ▸ earlier)
      simp [different, balanced.held s earlier]
  settled s unheld := by
    rw [held_acquire idle, not_or] at unheld
    simp [Ne.symm unheld.1, balanced.settled s unheld.2]

theorem Balanced.release (balanced : Balanced holds obtained released)
    (exclusive : Exclusive holds) (owned : holds a = some r) :
    Balanced (update holds a none) obtained (r :: released) where
  held s held := by
    obtain ⟨different, earlier⟩ := (held_release exclusive owned).mp held
    simp [Ne.symm different, balanced.held s earlier]
  settled s unheld := by
    rw [held_release exclusive owned] at unheld
    by_cases same : s = r
    · subst same
      simp [balanced.held s ⟨a, owned⟩]
    · simp [Ne.symm same, balanced.settled s (fun held => unheld ⟨same, held⟩)]

theorem Balanced.transfer (balanced : Balanced holds obtained released) (apart : a ≠ b)
    (idle : holds b = none) : Balanced (transfer holds a b) obtained released where
  held s held := balanced.held s ((held_transfer apart idle).mp held)
  settled s unheld := balanced.settled s (fun held => unheld ((held_transfer apart idle).mpr held))

end

end

end FlapjackOS.Custody
