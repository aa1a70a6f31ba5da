import FlapjackOS.Malloc.Zone
import FlapjackOS.Machine.Tiling

/-! Block headers in memory and the doubly linked list they form. The list is
tied to a tiling of the zone, from which every address is computed. -/

namespace FlapjackOS.Malloc

open Machine Tiling

/-- The four fields of `MallocBlock`. -/
@[ext] structure Header where
  prev : Nat
  next : Nat
  size : Nat
  inuse : Bool
  deriving DecidableEq, Repr

def header (arch : Arch) (memory : Memory) (block : Nat) : Header :=
  ⟨prev arch memory block, next arch memory block, size arch memory block,
    inuse arch memory block⟩

theorem prev_eq : prev arch memory block = (header arch memory block).prev := rfl

theorem next_eq : next arch memory block = (header arch memory block).next := rfl

theorem size_eq : size arch memory block = (header arch memory block).size := rfl

theorem sizeofBlock_pos (arch : Arch) : 0 < sizeofBlock arch := by
  cases arch <;> decide

theorem sizeofBlock_aligned (arch : Arch) : sizeofBlock arch % 4 = 0 := by
  cases arch <;> decide

section
variable {arch : Arch} {memory : Memory} {block other value x : Nat}

theorem header_congr
    (same : ∀ x, block ≤ x → x < block + sizeofBlock arch → changed x = memory x) :
    header arch changed block = header arch memory block := by
  have words := arch.wordBytes_cases
  simp only [sizeofBlock] at same
  simp only [header, prev, next, size, inuse, Header.mk.injEq]
  refine ⟨?_, ?_, ?_, by rw [same _ (by omega) (by omega)]⟩
  all_goals exact load_congr fun x low high => same x (by omega) (by omega)

section
variable (outside : x < block ∨ block + sizeofBlock arch ≤ x)
include outside

theorem setPrev_outside : setPrev arch memory block value x = memory x :=
  store_outside (by simp only [sizeofBlock] at outside; omega)

theorem setNext_outside : setNext arch memory block value x = memory x :=
  store_outside (by simp only [sizeofBlock] at outside; omega)

theorem setSize_outside : setSize arch memory block value x = memory x :=
  store_outside (by simp only [sizeofBlock] at outside; omega)

theorem setInuse_outside : setInuse arch memory block flag x = memory x := by
  have words := arch.wordBytes_cases
  exact storeByte_other (by simp only [sizeofBlock] at outside; omega)

end

section
variable (apart : block + sizeofBlock arch ≤ other ∨ other + sizeofBlock arch ≤ block)
include apart

@[simp] theorem header_setPrev_other :
    header arch (setPrev arch memory block value) other = header arch memory other :=
  header_congr (fun _ _ _ => setPrev_outside (by omega))

@[simp] theorem header_setNext_other :
    header arch (setNext arch memory block value) other = header arch memory other :=
  header_congr (fun _ _ _ => setNext_outside (by omega))

@[simp] theorem header_setSize_other :
    header arch (setSize arch memory block value) other = header arch memory other :=
  header_congr (fun _ _ _ => setSize_outside (by omega))

@[simp] theorem header_setInuse_other :
    header arch (setInuse arch memory block flag) other = header arch memory other :=
  header_congr (fun _ _ _ => setInuse_outside (by omega))

end

private theorem load_store_word (fits : value < arch.modulus) :
    load (store memory x arch.wordBytes value) x arch.wordBytes = value := by
  rw [load_store_same]
  exact Nat.mod_eq_of_lt fits

@[simp] theorem header_setPrev (fits : value < arch.modulus) :
    header arch (setPrev arch memory block value) block =
      { header arch memory block with prev := value } := by
  simp only [header, Header.mk.injEq]
  refine ⟨load_store_word fits, load_store_disjoint (by omega), load_store_disjoint (by omega), ?_⟩
  simp only [inuse, setPrev]
  rw [store_outside (by omega)]

@[simp] theorem header_setNext (fits : value < arch.modulus) :
    header arch (setNext arch memory block value) block =
      { header arch memory block with next := value } := by
  simp only [header, Header.mk.injEq]
  refine ⟨load_store_disjoint (by omega), load_store_word fits, load_store_disjoint (by omega), ?_⟩
  simp only [inuse, setNext]
  rw [store_outside (by omega)]

@[simp] theorem header_setSize (fits : value < arch.modulus) :
    header arch (setSize arch memory block value) block =
      { header arch memory block with size := value } := by
  simp only [header, Header.mk.injEq]
  refine ⟨load_store_disjoint (by omega), load_store_disjoint (by omega), load_store_word fits, ?_⟩
  simp only [inuse, setSize]
  rw [store_outside (by omega)]

@[simp] theorem header_setInuse :
    header arch (setInuse arch memory block flag) block =
      { header arch memory block with inuse := flag } := by
  have kept (offset : Nat) (inside : offset + arch.wordBytes ≤ 3 * arch.wordBytes) :
      load (setInuse arch memory block flag) (block + offset) arch.wordBytes =
        load memory (block + offset) arch.wordBytes :=
    load_congr (fun x low high => storeByte_other (by omega))
  simp only [header, Header.mk.injEq]
  refine ⟨kept 0 (by omega), kept _ (by omega), kept _ (by omega), ?_⟩
  simp only [inuse, setInuse, storeByte_same]
  cases flag <;> rfl

end

/-- What the `next` field of a block holds: the following header, or `last`
when the block ends the list. -/
def follow (last address : Nat) (rest : List Block) : Nat :=
  if rest = [] then last else address

/-- The headers of `blocks`, laid out from `base`, are linked both ways.
`before` is the header in front and `last` what follows the final block. -/
def Chain (arch : Arch) (memory : Memory) (before last base : Nat) : List Block → Prop
  | [] => True
  | block :: rest =>
    header arch memory base = ⟨before,
      follow last (base + sizeofBlock arch + block.size) rest, block.size, block.inuse⟩ ∧
    Chain arch memory base last (base + sizeofBlock arch + block.size) rest

/-- The last header of `blocks`, or `before` when there is none. -/
def lastHeader (arch : Arch) (before base : Nat) : List Block → Nat
  | [] => before
  | block :: rest => lastHeader arch base (base + sizeofBlock arch + block.size) rest

section
variable {arch : Arch} {memory changed : Memory} {before last base : Nat} {block : Block}
  {blocks front rest : List Block}

theorem Chain.congr_headers (chain : Chain arch memory before last base blocks)
    (same : ∀ address ∈ addresses (sizeofBlock arch) base blocks,
      ∀ x, address ≤ x → x < address + sizeofBlock arch → changed x = memory x) :
    Chain arch changed before last base blocks := by
  induction blocks generalizing before base with
  | nil => trivial
  | cons block rest ih =>
    simp only [addresses, List.mem_cons, forall_eq_or_imp] at same
    obtain ⟨own, later⟩ := same
    refine ⟨?_, ih chain.2 later⟩
    rw [header_congr own]
    exact chain.1

theorem Chain.congr (chain : Chain arch memory before last base blocks)
    (same : ∀ x, base ≤ x → x < base + span (sizeofBlock arch) blocks → changed x = memory x) :
    Chain arch changed before last base blocks := by
  refine chain.congr_headers (fun address member x low high => ?_)
  have bounds := addresses_bounds member
  exact same x (by omega) (by omega)

theorem chain_append :
    Chain arch memory before last base (front ++ block :: rest) ↔
      Chain arch memory before (base + span (sizeofBlock arch) front) base front ∧
      Chain arch memory (lastHeader arch before base front) last
        (base + span (sizeofBlock arch) front) (block :: rest) := by
  induction front generalizing before base with
  | nil => simp [Chain, span, lastHeader]
  | cons first front ih =>
    simp only [List.cons_append, Chain, span, lastHeader] at ih ⊢
    rw [ih]
    have place : base + sizeofBlock arch + first.size + span (sizeofBlock arch) front =
        base + (sizeofBlock arch + first.size + span (sizeofBlock arch) front) := by omega
    have link : follow last (base + sizeofBlock arch + first.size) (front ++ block :: rest) =
        follow (base + (sizeofBlock arch + first.size + span (sizeofBlock arch) front))
          (base + sizeofBlock arch + first.size) front := by
      cases front <;> simp [follow, span]
      omega
    rw [place, link, and_assoc]

theorem lastHeader_append :
    lastHeader arch before base (front ++ [block]) =
      base + span (sizeofBlock arch) front := by
  induction front generalizing before base with
  | nil => simp [lastHeader, span]
  | cons first front ih =>
    simp only [List.cons_append, lastHeader, span, ih]
    omega

/-- Writes behind the front part leave it linked as it was. -/
theorem Chain.replace (chain : Chain arch memory before last base (front ++ block :: rest))
    (same : ∀ x, x < base + span (sizeofBlock arch) front → changed x = memory x)
    (suffix : Chain arch changed (lastHeader arch before base front) last
      (base + span (sizeofBlock arch) front) (new :: tail)) :
    Chain arch changed before last base (front ++ new :: tail) :=
  chain_append.mpr ⟨(chain_append.mp chain).1.congr (fun x _ high => same x high), suffix⟩

end

end FlapjackOS.Malloc
