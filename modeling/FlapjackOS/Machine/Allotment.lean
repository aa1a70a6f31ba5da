import Mathlib.Data.List.TakeDrop

/-! Output into a limited room. A piece of output uses up some places without filling them and
then writes its text into what is left. -/

namespace FlapjackOS.Allotment

structure Piece (α : Type) where
  lost : Nat
  text : List α

/-- The pieces one after another, as an unlimited room receives them. -/
def whole : List (Piece α) → List α
  | [] => []
  | piece :: rest => piece.text ++ whole rest

/-- The places that are used up without being filled. -/
def lost : List (Piece α) → Nat
  | [] => 0
  | piece :: rest => piece.lost + lost rest

/-- The length of the text in front of the first loss. -/
def intact : List (Piece α) → Nat
  | [] => 0
  | piece :: rest => if piece.lost = 0 then piece.text.length + intact rest else 0

/-- What a room of the given size receives. -/
def received : Nat → List (Piece α) → List α
  | _, [] => []
  | room, piece :: rest =>
    piece.text.take (room - piece.lost) ++ received (room - piece.lost - piece.text.length) rest

/-- The places that are left afterwards. -/
def remaining : Nat → List (Piece α) → Nat
  | room, [] => room
  | room, piece :: rest => remaining (room - piece.lost - piece.text.length) rest

/-- The places that are counted: those of the text, without the losses that the room does not have. -/
def counted : Nat → List (Piece α) → Nat
  | _, [] => 0
  | room, piece :: rest =>
    piece.text.length - (piece.lost - room) + counted (room - piece.lost - piece.text.length) rest

/-- Places are lost only in front of some text. -/
def Purposeful (pieces : List (Piece α)) : Prop :=
  ∀ piece ∈ pieces, piece.lost ≠ 0 → piece.text ≠ []

variable {pieces more : List (Piece α)} {piece : Piece α} {room : Nat}

theorem whole_append : whole (pieces ++ more) = whole pieces ++ whole more := by
  induction pieces with
  | nil => rfl
  | cons piece rest ih => simp [whole, ih]

theorem received_append : received room (pieces ++ more) =
    received room pieces ++ received (remaining room pieces) more := by
  induction pieces generalizing room with
  | nil => rfl
  | cons piece rest ih => simp [received, remaining, ih]

theorem received_subset : received room pieces ⊆ whole pieces := by
  induction pieces generalizing room with
  | nil => exact List.nil_subset []
  | cons piece rest ih =>
    intro c member
    rcases List.mem_append.mp member with here | later
    · exact List.mem_append_left _ (List.mem_of_mem_take here)
    · exact List.mem_append_right _ (ih later)

theorem Purposeful.append (first : Purposeful pieces) (second : Purposeful more) :
    Purposeful (pieces ++ more) := by
  intro piece member
  rcases List.mem_append.mp member with left | right
  · exact first piece left
  · exact second piece right

theorem received_add_remaining_le : (received room pieces).length + remaining room pieces ≤ room := by
  induction pieces generalizing room with
  | nil => exact Nat.le_of_eq (Nat.zero_add room)
  | cons piece rest ih =>
    have tail := @ih (room - piece.lost - piece.text.length)
    simp only [received, remaining, List.length_append, List.length_take]
    omega

theorem received_length_le : (received room pieces).length ≤ room :=
  Nat.le_of_add_right_le received_add_remaining_le

theorem received_length_le_whole : (received room pieces).length ≤ (whole pieces).length := by
  induction pieces generalizing room with
  | nil => exact Nat.le_refl 0
  | cons piece rest ih =>
    have tail := @ih (room - piece.lost - piece.text.length)
    simp only [received, whole, List.length_append, List.length_take]
    omega

theorem received_of_le (enough : (whole pieces).length + lost pieces ≤ room) :
    received room pieces = whole pieces := by
  induction pieces generalizing room with
  | nil => rfl
  | cons piece rest ih =>
    simp only [whole, lost, List.length_append] at enough
    rw [received, whole, List.take_of_length_le (by omega), ih (by omega)]

/-- Nothing less is enough for the whole text. -/
theorem enough_of_received (purposeful : Purposeful pieces)
    (complete : (whole pieces).length ≤ (received room pieces).length) :
    (whole pieces).length + lost pieces ≤ room := by
  induction pieces generalizing room with
  | nil => exact Nat.zero_le room
  | cons piece rest ih =>
    have tail := @received_length_le_whole _ rest (room - piece.lost - piece.text.length)
    simp only [whole, received, List.length_append, List.length_take] at complete
    have later := @ih (room - piece.lost - piece.text.length)
      (List.forall_mem_cons.mp purposeful).2 (by omega)
    have here : piece.lost ≠ 0 → 0 < piece.text.length :=
      fun loses => List.length_pos_iff.mpr (purposeful piece List.mem_cons_self loses)
    simp only [whole, lost, List.length_append]
    omega

/-- The room receives the beginning of the whole text exactly when it is full before the first
loss, or holds the whole text and all that is lost. -/
theorem received_eq_take_iff (purposeful : Purposeful pieces) :
    received room pieces = (whole pieces).take room ↔
      room ≤ intact pieces ∨ (whole pieces).length + lost pieces ≤ room := by
  induction pieces generalizing room with
  | nil => simp [received, whole, lost]
  | cons piece rest ih =>
    have later := (List.forall_mem_cons.mp purposeful).2
    by_cases loses : piece.lost = 0
    · rw [received, whole, loses, Nat.sub_zero, List.take_append, List.append_cancel_left_eq,
        ih later, intact, if_pos loses, lost, loses, List.length_append]
      omega
    · constructor
      · intro truncated
        have short : (received room (piece :: rest)).length ≤ room - piece.lost := by
          have tail := @received_length_le _ rest (room - piece.lost - piece.text.length)
          simp only [received, List.length_append, List.length_take]
          omega
        have length := congrArg List.length truncated
        rw [List.length_take] at length
        by_cases empty : room = 0
        · exact .inl (by omega)
        · exact .inr (enough_of_received purposeful (by omega))
      · rintro (full | enough)
        · rw [intact, if_neg loses] at full
          have short := @received_length_le _ (piece :: rest) room
          have nothing : received room (piece :: rest) = [] :=
            List.eq_nil_of_length_eq_zero (by omega)
          rw [nothing, Nat.le_zero.mp full, List.take_zero]
        · rw [received_of_le enough, List.take_of_length_le (by omega)]

theorem counted_append : counted room (pieces ++ more) =
    counted room pieces + counted (remaining room pieces) more := by
  induction pieces generalizing room with
  | nil => simp [counted, remaining]
  | cons piece rest ih => simp [counted, remaining, ih, Nat.add_assoc]

theorem counted_le : counted room pieces ≤ (whole pieces).length := by
  induction pieces generalizing room with
  | nil => exact Nat.le_refl 0
  | cons piece rest ih =>
    have tail := @ih (room - piece.lost - piece.text.length)
    rw [counted, whole, List.length_append]
    omega

/-- Without losses, or with room for all of them, the whole text is counted. -/
theorem counted_of_intact (none : lost pieces = 0) : counted room pieces = (whole pieces).length := by
  induction pieces generalizing room with
  | nil => rfl
  | cons piece rest ih =>
    rw [lost] at none
    rw [counted, whole, List.length_append, ih (by omega)]
    omega

theorem counted_of_le (enough : (whole pieces).length + lost pieces ≤ room) :
    counted room pieces = (whole pieces).length := by
  induction pieces generalizing room with
  | nil => rfl
  | cons piece rest ih =>
    simp only [whole, lost, List.length_append] at enough
    rw [counted, whole, List.length_append, ih (by omega)]
    omega

/-- If there are losses, some room is just one place short. -/
theorem exists_counted_lt (purposeful : Purposeful pieces) (loses : lost pieces ≠ 0) :
    ∃ room, counted room pieces + 1 = (whole pieces).length := by
  induction pieces with
  | nil => exact absurd rfl loses
  | cons piece rest ih =>
    have later := (List.forall_mem_cons.mp purposeful).2
    rw [lost] at loses
    by_cases behind : lost rest = 0
    · have text := List.length_pos_iff.mpr (purposeful piece List.mem_cons_self (by omega))
      refine ⟨piece.lost - 1, ?_⟩
      rw [counted, counted_of_intact behind, whole, List.length_append]
      omega
    · obtain ⟨room, short⟩ := ih later behind
      refine ⟨room + piece.lost + piece.text.length, ?_⟩
      have left : room + piece.lost + piece.text.length - piece.lost - piece.text.length = room := by omega
      rw [counted, left, whole, List.length_append]
      omega

end FlapjackOS.Allotment
