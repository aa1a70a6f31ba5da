/-! `UniquePointer`, the only owner of a heap object. Its lock is left out: every
operation releases it before it returns. -/

namespace FlapjackOS

/-- What an object holds after a move construction from it. -/
class Movable (α : Type) where
  residue : α → α

/-- `data` is the object that is owned, and `none` for the null pointer. -/
structure UniquePointer (α : Type) where
  data : Option α
  shouldLeak : Bool
  deriving DecidableEq, Repr

namespace UniquePointer

/-- The pointer constructed from a raw pointer. -/
def ofPointer (data : Option α) : UniquePointer α := { data, shouldLeak := false }

def null : UniquePointer α := ofPointer none

instance : Movable (UniquePointer α) := ⟨fun _ => null⟩

def setShouldLeak (pointer : UniquePointer α) : UniquePointer α :=
  { pointer with shouldLeak := true }

/-- The object that `release_unlocked` deletes. -/
def release (pointer : UniquePointer α) : List α :=
  if pointer.shouldLeak then [] else pointer.data.toList

end UniquePointer

end FlapjackOS
