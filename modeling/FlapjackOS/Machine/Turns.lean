import Mathlib.Data.List.Nodup

/-! Taking turns. An order says who is to have the next turn, and a history who has had
one, the latest first. Whoever has had a turn goes to the end of the order. -/

namespace FlapjackOS.Turns

variable {α : Type} [DecidableEq α] {x y : α} {order other left right history : List α}

/-- The turns since the last one of `x`. -/
def since (x : α) (history : List α) : List α := history.takeWhile (· ≠ x)

@[simp] theorem since_self : since x (x :: history) = [] := by simp [since]

theorem since_cons (different : y ≠ x) : since x (y :: history) = y :: since x history := by
  simp [since, different]

/-- Whoever is ahead of `x` in the order has had no turn since the last one of `x`, and
nobody has had two. -/
structure Fair (order history : List α) : Prop where
  nodup : order.Nodup
  ahead : order.Pairwise (fun y x => x ∈ history → y ∉ since x history)
  once : ∀ x ∈ order, x ∈ history → (since x history).Nodup

theorem fair_nil : Fair ([] : List α) history := ⟨List.nodup_nil, .nil, by simp⟩

theorem Fair.sublist (fair : Fair order history) (part : other.Sublist order) :
    Fair other history where
  nodup := fair.nodup.sublist part
  ahead := fair.ahead.sublist part
  once x member := fair.once x (part.subset member)

/-- A newcomer may get any place in the order. -/
theorem Fair.join (fair : Fair (left ++ right) history) (unlisted : x ∉ left ++ right)
    (unseen : x ∉ history) : Fair (left ++ x :: right) history where
  nodup := by
    rw [List.nodup_middle]
    exact List.nodup_cons.mpr ⟨unlisted, fair.nodup⟩
  ahead := by
    obtain ⟨lefts, rights, across⟩ := List.pairwise_append.mp fair.ahead
    refine List.pairwise_append.mpr ⟨lefts, List.pairwise_cons.mpr ⟨?_, rights⟩, ?_⟩
    · intro y _ _ member
      exact unseen ((List.takeWhile_prefix _).subset member)
    · intro z inLeft y member
      rcases List.mem_cons.mp member with rfl | inRight
      · exact fun seen => absurd seen unseen
      · exact across z inLeft y inRight
  once y member seen := by
    rcases List.mem_append.mp member with inLeft | inRest
    · exact fair.once y (List.mem_append_left _ inLeft) seen
    · rcases List.mem_cons.mp inRest with rfl | inRight
      · exact absurd seen unseen
      · exact fair.once y (List.mem_append_right _ inRight) seen

theorem Fair.turn (fair : Fair (x :: order) history) : Fair (order ++ [x]) (x :: history) := by
  obtain ⟨unlisted, nodup⟩ := List.nodup_cons.mp fair.nodup
  obtain ⟨first, later⟩ := List.pairwise_cons.mp fair.ahead
  have different : ∀ y ∈ order, x ≠ y := by
    rintro y member rfl
    exact unlisted member
  have earlier : ∀ y ∈ order, y ∈ x :: history → y ∈ history := by
    intro y member seen
    exact (List.mem_cons.mp seen).resolve_left (different y member).symm
  refine ⟨?_, ?_, ?_⟩
  · exact List.nodup_append_comm.mp (List.nodup_cons.mpr ⟨unlisted, nodup⟩)
  · refine List.pairwise_append.mpr ⟨?_, List.pairwise_singleton _ _, ?_⟩
    · refine later.imp_of_mem fun {z y} zMember yMember apart seen member => ?_
      rw [since_cons (different y yMember)] at member
      rcases List.mem_cons.mp member with rfl | before
      · exact unlisted zMember
      · exact apart (earlier y yMember seen) before
    · intro y _ z last
      rw [List.mem_singleton.mp last]
      simp
  · intro y member seen
    rcases List.mem_append.mp member with inOrder | last
    · rw [since_cons (different y inOrder)]
      have seenBefore := earlier y inOrder seen
      exact List.nodup_cons.mpr ⟨first y inOrder seenBefore,
        fair.once y (List.mem_cons_of_mem _ inOrder) seenBefore⟩
    · rw [List.mem_singleton.mp last]
      simp

/-- Between two consecutive turns of one nobody else has had two. -/
def Bounded (history : List α) : Prop :=
  ∀ x after between before, history = after ++ x :: (between ++ x :: before) → x ∉ between →
    between.Nodup

omit [DecidableEq α] in
theorem bounded_nil : Bounded ([] : List α) := by
  intro x after between before impossible
  simp at impossible

theorem since_append (absent : x ∉ left) : since x (left ++ x :: right) = left := by
  induction left with
  | nil => simp
  | cons y rest ih =>
    rw [List.mem_cons, not_or] at absent
    obtain ⟨different, later⟩ := absent
    rw [List.cons_append, since_cons (Ne.symm different), ih later]

theorem Bounded.turn (bounded : Bounded history) (recent : x ∈ history → (since x history).Nodup) :
    Bounded (x :: history) := by
  intro y after between before split absent
  cases after with
  | nil =>
    obtain ⟨rfl, rfl⟩ := List.cons.inj split
    have nodup := recent (by simp)
    rwa [since_append absent] at nodup
  | cons latest after =>
    obtain ⟨rfl, earlier⟩ := List.cons.inj split
    exact bounded y after between before earlier absent

end FlapjackOS.Turns
