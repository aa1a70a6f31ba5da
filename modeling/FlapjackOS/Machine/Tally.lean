import FlapjackOS.Machine.Custody
import Mathlib.Algebra.BigOperators.Group.Finset.Piecewise
import Mathlib.Data.Fintype.Basic

namespace FlapjackOS.Tally

open Custody Function

variable {Holder Resource : Type} [Fintype Holder] [DecidableEq Resource]
  {refers : Holder → Option Resource} {a b : Holder} {r s : Resource}

/-- The number of holders that refer to a resource. -/
def tally (refers : Holder → Option Resource) (r : Resource) : Nat :=
  (Finset.univ.filter (fun holder => refers holder = some r)).card

theorem tally_pos_iff : 0 < tally refers r ↔ Held refers r := by
  simp [tally, Finset.card_pos, Finset.Nonempty, Held]

theorem tally_eq_zero_iff : tally refers r = 0 ↔ ¬ Held refers r := by
  rw [← tally_pos_iff]
  omega

section
variable [DecidableEq Holder]

/-- What one holder contributes before and after it changes. -/
theorem tally_update (refers : Holder → Option Resource) (a : Holder) (changed : Option Resource)
    (r : Resource) :
    tally (update refers a changed) r + (if refers a = some r then 1 else 0) =
      tally refers r + (if changed = some r then 1 else 0) := by
  simp only [tally, Finset.card_filter]
  rw [← Finset.add_sum_erase Finset.univ _ (Finset.mem_univ a),
    ← Finset.add_sum_erase Finset.univ (fun holder => if refers holder = some r then 1 else 0)
      (Finset.mem_univ a)]
  have others : ∀ holder ∈ Finset.univ.erase a,
      (if update refers a changed holder = some r then 1 else 0) =
        if refers holder = some r then 1 else 0 := by
    intro holder other
    rw [update_of_ne (Finset.ne_of_mem_erase other)]
  rw [Finset.sum_congr rfl others, update_self]
  omega

theorem tally_drop (owned : refers a = some r) : tally (update refers a none) r + 1 = tally refers r := by
  simpa [owned] using tally_update refers a none r

theorem tally_drop_ne (other : refers a ≠ some r) : tally (update refers a none) r = tally refers r := by
  simpa [other] using tally_update refers a none r

theorem tally_join (idle : refers a = none) :
    tally (update refers a (some r)) r = tally refers r + 1 := by
  simpa [idle] using tally_update refers a (some r) r

theorem tally_join_ne (idle : refers a = none) (different : s ≠ r) :
    tally (update refers a (some r)) s = tally refers s := by
  simpa [idle, Ne.symm different] using tally_update refers a (some r) s

theorem tally_transfer (apart : a ≠ b) (idle : refers b = none) (r : Resource) :
    tally (transfer refers a b) r = tally refers r := by
  have moved := tally_update refers b (refers a) r
  have left := tally_update (update refers b (refers a)) a none r
  simp only [update_of_ne apart, idle, reduceCtorEq, if_false] at moved left
  simp only [transfer]
  omega

/-- There is a counter for each resource that is referred to, and it counts the holders. -/
def Counted (refers : Holder → Option Resource) (counters : Resource → Option Int) : Prop :=
  ∀ r, counters r = if tally refers r = 0 then none else some (tally refers r : Int)

variable {counters : Resource → Option Int}

omit [DecidableEq Holder] in
theorem Counted.live (counted : Counted refers counters) (owned : refers a = some r) :
    ∃ count, tally refers r = count + 1 ∧ counters r = some (count + 1 : Int) := by
  have positive : 0 < tally refers r := tally_pos_iff.mpr ⟨a, owned⟩
  refine ⟨tally refers r - 1, by omega, ?_⟩
  rw [counted, if_neg (by omega)]
  congr 1
  omega

/-- The counter of the resource that `a` gives up, and the others. -/
theorem Counted.drop (counted : Counted refers counters) (owned : refers a = some r)
    (count : Nat) (rest : tally refers r = count + 1) :
    Counted (update refers a none)
      (update counters r (if count = 0 then none else some (count : Int))) := by
  intro s
  by_cases same : s = r
  · subst same
    have left : tally (update refers a none) s = count := by
      have := tally_drop owned
      omega
    rw [update_self, left]
  · have other : refers a ≠ some s := by
      rw [owned]
      simpa using Ne.symm same
    rw [update_of_ne same, tally_drop_ne other, counted]

theorem Counted.join (counted : Counted refers counters) (idle : refers a = none) (r : Resource) :
    Counted (update refers a (some r)) (update counters r (some (tally refers r + 1 : Int))) := by
  intro s
  by_cases same : s = r
  · subst same
    simp [tally_join idle]
  · rw [update_of_ne same, tally_join_ne idle same, counted]

theorem Counted.transfer (counted : Counted refers counters) (apart : a ≠ b)
    (idle : refers b = none) : Counted (Custody.transfer refers a b) counters := by
  intro r
  rw [tally_transfer apart idle, counted]

/-- What is held through each resource that is referred to. -/
def shares {Object : Type} (refers : Holder → Option Resource) (target : Resource → Option Object) :
    Resource → Option Object :=
  fun r => if tally refers r = 0 then none else target r

section
variable {Object : Type} {target : Resource → Option Object}

theorem shares_drop (owned : refers a = some r) :
    shares (update refers a none) target =
      if tally refers r = 1 then update (shares refers target) r none else shares refers target := by
  funext s
  by_cases same : s = r
  · subst same
    have left := tally_drop owned
    split
    · have gone : tally (update refers a none) s = 0 := by omega
      simp [shares, gone]
    · have remains : tally (update refers a none) s ≠ 0 := by omega
      have before : tally refers s ≠ 0 := by omega
      simp [shares, remains, before]
  · have other : refers a ≠ some s := by
      rw [owned]
      simpa using Ne.symm same
    split
    · rw [update_of_ne same, shares, shares, tally_drop_ne other]
    · rw [shares, shares, tally_drop_ne other]

theorem shares_join (idle : refers a = none) (held : Held refers r) :
    shares (update refers a (some r)) target = shares refers target := by
  funext s
  by_cases same : s = r
  · subst same
    have before : tally refers s ≠ 0 := fun zero => tally_eq_zero_iff.mp zero held
    simp [shares, tally_join idle, before]
  · rw [shares, shares, tally_join_ne idle same]

theorem shares_first (idle : refers a = none) (object : Option Object) :
    shares (update refers a (some r)) (update target r object) =
      update (shares refers target) r object := by
  funext s
  by_cases same : s = r
  · subst same
    simp [shares, tally_join idle]
  · rw [update_of_ne same, shares, shares, tally_join_ne idle same, update_of_ne same]

theorem shares_transfer (apart : a ≠ b) (idle : refers b = none) :
    shares (Custody.transfer refers a b) target = shares refers target := by
  funext s
  rw [shares, shares, tally_transfer apart idle]

end

end

end FlapjackOS.Tally
