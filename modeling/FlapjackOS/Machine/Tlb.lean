import Mathlib.Logic.Function.Basic

/-! A cache of translations beside tables that change. The cache may take in what the tables say,
and lose what it has, at any moment. -/

namespace FlapjackOS.Tlb

open Function

variable {Tables Page Entry Operation : Type} [DecidableEq Page]

/-- What operations do to the tables, which pages' entries they drop from the cache, and what the
tables say of a page. -/
structure Mmu (Tables Page Entry Operation : Type) where
  apply : Operation → Tables → Tables
  drops : Operation → Page → Bool
  walk : Tables → Page → Option Entry

namespace Mmu

variable (mmu : Mmu Tables Page Entry Operation)

/-- The tables after the operations. -/
def replay (tables : Tables) : List Operation → Tables
  | [] => tables
  | operation :: rest => replay (mmu.apply operation tables) rest

def drop (operation : Operation) (cache : Page → Option Entry) : Page → Option Entry :=
  fun page => if mmu.drops operation page then none else cache page

/-- The caches that may be there after the operations. -/
inductive Behaves : Tables → (Page → Option Entry) → List Operation → (Page → Option Entry) → Prop where
  | done : Behaves tables cache [] cache
  | fill (present : mmu.walk tables page = some entry)
      (later : Behaves tables (update cache page (some entry)) operations final) :
      Behaves tables cache operations final
  | evict (page : Page) (later : Behaves tables (update cache page none) operations final) :
      Behaves tables cache operations final
  | perform (later : Behaves (mmu.apply operation tables) (mmu.drop operation cache) operations final) :
      Behaves tables cache (operation :: operations) final

/-- No entry in the cache says anything else than the tables. -/
def Coherent (tables : Tables) (cache : Page → Option Entry) : Prop :=
  ∀ page entry, cache page = some entry → mmu.walk tables page = some entry

/-- Each operation keeps the translations of all pages that are not dropped later. -/
def Careful (tables : Tables) : List Operation → Prop
  | [] => True
  | operation :: rest =>
    (∀ page entry, (∀ later ∈ rest, mmu.drops later page = false) → mmu.walk tables page = some entry →
      mmu.walk (mmu.apply operation tables) page = some entry) ∧
    Careful (mmu.apply operation tables) rest

variable {mmu} {tables : Tables} {cache final : Page → Option Entry} {operations first later : List Operation}

omit [DecidableEq Page] in
theorem replay_append (tables : Tables) (first later : List Operation) :
    mmu.replay tables (first ++ later) = mmu.replay (mmu.replay tables first) later := by
  induction first generalizing tables with
  | nil => rfl
  | cons operation first ih => exact ih _

/-- What is said of all entries still is when one is replaced. -/
theorem forall_update {Said : Page → Entry → Prop} {page : Page} {value : Option Entry}
    (kept : ∀ page entry, cache page = some entry → Said page entry)
    (here : ∀ entry, value = some entry → Said page entry) :
    ∀ other entry, update cache page value other = some entry → Said other entry := by
  intro other entry cached
  by_cases same : other = page
  · subst same
    rw [update_self] at cached
    exact here entry cached
  · rw [update_of_ne same] at cached
    exact kept other entry cached

/-- An entry is right, or it is going to be dropped. -/
theorem Careful.coherent (careful : mmu.Careful tables operations) (behaves : mmu.Behaves tables cache operations final)
    (lingers : ∀ page entry, cache page = some entry →
      mmu.walk tables page = some entry ∨ ∃ operation ∈ operations, mmu.drops operation page = true) :
    mmu.Coherent (mmu.replay tables operations) final := by
  induction behaves with
  | done =>
    intro page entry cached
    rcases lingers page entry cached with current | ⟨_, member, _⟩
    · exact current
    · cases member
  | fill present _ ih =>
    refine ih careful (forall_update lingers fun entry same => ?_)
    obtain rfl := Option.some.inj same
    exact .inl present
  | evict page _ ih => exact ih careful (forall_update lingers (by rintro _ ⟨⟩))
  | @perform operation tables cache operations final _ ih =>
    obtain ⟨keeps, careful⟩ := careful
    apply ih careful
    intro page entry cached
    by_cases dropped : mmu.drops operation page = true
    · rw [drop, if_pos dropped] at cached
      cases cached
    · rw [drop, if_neg dropped] at cached
      by_cases later : ∃ operation ∈ operations, mmu.drops operation page = true
      · exact .inr later
      · simp only [not_exists, not_and, Bool.not_eq_true] at later
        rcases lingers page entry cached with current | ⟨other, member, drops⟩
        · exact .inl (keeps page entry later current)
        · rcases List.mem_cons.mp member with rfl | member
          · exact absurd drops dropped
          · exact absurd drops (Bool.eq_false_iff.mp (later other member))

/-- The cache takes in nothing. -/
def idle (mmu : Mmu Tables Page Entry Operation) (cache : Page → Option Entry) :
    List Operation → Page → Option Entry
  | [] => cache
  | operation :: rest => idle mmu (mmu.drop operation cache) rest

end Mmu

end FlapjackOS.Tlb
