import FlapjackOS.Machine.Memory

namespace FlapjackOS.Machine

variable {memory other : Memory} {width address value : Nat} {words more : List Nat}

/-- The words, of `width` bytes each, from an address upwards. -/
def WordsAt (memory : Memory) (width : Nat) : Nat → List Nat → Prop
  | _, [] => True
  | address, value :: words =>
    load memory address width = value ∧ WordsAt memory width (address + width) words

theorem wordsAt_append : WordsAt memory width address (words ++ more) ↔
    WordsAt memory width address words ∧ WordsAt memory width (address + width * words.length) more := by
  induction words generalizing address with
  | nil => simp [WordsAt]
  | cons value words ih =>
    have next : address + width + width * words.length = address + width * (words.length + 1) := by
      rw [Nat.mul_succ]
      omega
    simp only [List.cons_append, WordsAt, ih, next, List.length_cons, and_assoc]

theorem WordsAt.congr (stand : WordsAt memory width address words)
    (same : ∀ x, address ≤ x → x < address + width * words.length → other x = memory x) :
    WordsAt other width address words := by
  induction words generalizing address with
  | nil => trivial
  | cons value words ih =>
    obtain ⟨first, rest⟩ := stand
    rw [List.length_cons, Nat.mul_succ] at same
    refine ⟨?_, ih rest fun x low high => same x (by omega) (by omega)⟩
    rw [← first]
    exact load_congr (fun x low high => same x low (by omega))

theorem WordsAt.push (stand : WordsAt memory width address words) (room : width ≤ address)
    (small : value < 256 ^ width) :
    WordsAt (store memory (address - width) width value) width (address - width) (value :: words) := by
  refine ⟨?_, ?_⟩
  · rw [load_store_same, Nat.mod_eq_of_lt small]
  · rw [Nat.sub_add_cancel room]
    exact stand.congr (fun x low _ => store_outside (.inr (by omega)))

/-- The memory when words have been pushed below an address, one after the other. -/
def pushAll (memory : Memory) (width : Nat) : Nat → List Nat → Memory
  | _, [] => memory
  | address, value :: values =>
    pushAll (store memory (address - width) width value) width (address - width) values

theorem WordsAt.pushAll (stand : WordsAt memory width address below) (room : width * values.length ≤ address)
    (small : ∀ value ∈ values, value < 256 ^ width) :
    WordsAt (pushAll memory width address values) width (address - width * values.length)
      (values.reverse ++ below) := by
  induction values generalizing memory address below with
  | nil => exact stand
  | cons value values ih =>
    obtain ⟨first, others⟩ := List.forall_mem_cons.mp small
    rw [List.length_cons, Nat.mul_succ] at room ⊢
    have pushed := ih (stand.push (by omega) first) (by omega) others
    rw [Nat.sub_sub, Nat.add_comm] at pushed
    rw [List.reverse_cons, List.append_assoc]
    exact pushed

theorem pushAll_outside (room : width * values.length ≤ address)
    (outside : x < address - width * values.length ∨ address ≤ x) :
    pushAll memory width address values x = memory x := by
  induction values generalizing memory address with
  | nil => rfl
  | cons value values ih =>
    rw [List.length_cons, Nat.mul_succ] at room outside
    rw [pushAll, ih (by omega) (by omega), store_outside (by omega)]

end FlapjackOS.Machine
