import FlapjackOS.Machine.Arch
import Mathlib.Data.List.MinMax

/-! `GenericSymbolicatorFactory` and `Symbolicator`, on an image whose strings and symbols are read
through `Image`. -/

namespace FlapjackOS.Elf.Symbols

/-- The members of a section header that the factory or the format refers to. -/
structure SectionHeader where
  shType : Nat
  shAddr : Nat
  shSize : Nat
  shLink : Nat

structure ElfSymbol where
  stName : Nat
  stValue : Nat
  stInfo : Nat

def shtSymtab : Nat := 2
def shtStrtab : Nat := 3
def sttFunc : Nat := 2

/-- `sizeof(Elf32_Sym)`, `sizeof(Elf64_Sym)` -/
def sizeofElfSymbol : Arch → Nat
  | .i386 => 16
  | .x86_64 => 24

/-- What is at the logical address of a physical address: the symbols of an array, and the string
with an offset. -/
structure Image where
  symbol : Nat → Nat → ElfSymbol
  string : Nat → Nat → List UInt8

structure Symbol where
  address : Nat
  name : List UInt8

namespace SymbolicatorFactory

def isElfSymbolAFunction (symbol : ElfSymbol) : Bool := symbol.stInfo &&& 0xf == sttFunc

/-- The loop of `get_shdr_of_type`. -/
def searchShdr (type : Nat) (shdr : SectionHeader) : List SectionHeader → SectionHeader
  | [] => shdr
  | header :: rest => if header.shType = type then header else searchShdr type shdr rest

/-- There has to be a section to begin with. -/
def getShdrOfType (table : List SectionHeader) (type : Nat) : Option SectionHeader :=
  table.head?.map (searchShdr type · table)

/-- The symbols of a symbol table. -/
def symbols (arch : Arch) (image : Image) (shdr : SectionHeader) : List ElfSymbol :=
  (List.range (shdr.shSize / sizeofElfSymbol arch)).map (image.symbol shdr.shAddr)

/-- The name of a symbol, from the string table in this section. -/
def getString (image : Image) (shdr : SectionHeader) (symbol : ElfSymbol) : List UInt8 :=
  image.string shdr.shAddr symbol.stName

def makeSymbolicator (arch : Arch) (image : Image) (table : List SectionHeader) : Option (List Symbol) := do
  let symtab ← getShdrOfType table shtSymtab
  let strtab ← getShdrOfType table shtStrtab
  return ((symbols arch image symtab).filter isElfSymbolAFunction).map fun symbol =>
    ⟨symbol.stValue, getString image strtab symbol⟩

end SymbolicatorFactory

namespace Symbolicator

/-- One round of the loop of `symbolicate`. -/
def better (ip : Nat) (best : Option Symbol) (symbol : Symbol) : Option Symbol :=
  if symbol.address ≤ ip ∧ best.all (·.address < symbol.address) then some symbol else best

/-- The name before it is demangled. There is no result if the assertion fails. -/
def symbolicate (registered : List Symbol) (ip : Nat) : Option (Option (List UInt8)) :=
  if 0 < registered.length then some ((registered.foldl (better ip) none).map Symbol.name) else none

open SymbolicatorFactory

/-- The function symbol with the greatest value up to `ip`, the first of those in the table. -/
def wanted (functions : List ElfSymbol) (ip : Nat) : Option ElfSymbol :=
  (functions.filter (·.stValue ≤ ip)).argmax ElfSymbol.stValue

theorem foldl_better (functions : List ElfSymbol) (ip : Nat) (name : ElfSymbol → List UInt8) :
    (functions.map fun symbol => ⟨symbol.stValue, name symbol⟩).foldl (better ip) none =
      (wanted functions ip).map fun symbol => ⟨symbol.stValue, name symbol⟩ := by
  induction functions using List.reverseRecOn with
  | nil => rfl
  | append_singleton functions symbol ih =>
    rw [List.map_append, List.map_singleton, List.foldl_concat, ih, wanted, wanted, List.filter_append, better]
    by_cases below : symbol.stValue ≤ ip
    · rw [List.filter_singleton, decide_eq_true below, cond_true, List.argmax_concat]
      cases (functions.filter (·.stValue ≤ ip)).argmax ElfSymbol.stValue with
      | none => simp [below]
      | some best => by_cases more : best.stValue < symbol.stValue <;> simp [below, more]
    · simp [below]

section
variable {arch : Arch} {image : Image} {table : List SectionHeader} {symtab strtab : SectionHeader}

/-- The first section of the type, or section 0 if there is none. -/
def FirstOfType (table : List SectionHeader) (type : Nat) (shdr : SectionHeader) : Prop :=
  (shdr.shType = type ∧ ∃ before after, table = before ++ shdr :: after ∧
      ∀ header ∈ before, header.shType ≠ type) ∨
    table[0]? = some shdr ∧ ∀ header ∈ table, header.shType ≠ type

theorem searchShdr_eq (type : Nat) (shdr : SectionHeader) (table : List SectionHeader) :
    searchShdr type shdr table = (table.find? (·.shType = type)).getD shdr := by
  induction table with
  | nil => rfl
  | cons header rest ih => by_cases here : header.shType = type <;> simp [searchShdr, here, ih]

theorem getShdrOfType_eq (table : List SectionHeader) (type : Nat) :
    getShdrOfType table type = (table.find? (·.shType = type)).or table.head? := by
  cases table with
  | nil => rfl
  | cons header rest =>
    rw [getShdrOfType, List.head?_cons, Option.map_some, searchShdr_eq]
    cases (header :: rest).find? (·.shType = type) <;> rfl

theorem firstOfType_iff : FirstOfType table type shdr ↔ getShdrOfType table type = some shdr := by
  have first (shdr : SectionHeader) : (shdr.shType = type ∧ ∃ before after, table = before ++ shdr :: after ∧
      ∀ header ∈ before, header.shType ≠ type) ↔ table.find? (·.shType = type) = some shdr := by
    rw [List.find?_eq_some_iff_append]
    simp
  have others : (∀ header ∈ table, header.shType ≠ type) ↔ table.find? (·.shType = type) = none := by
    simp
  rw [FirstOfType, first, others, getShdrOfType_eq, List.head?_eq_getElem?]
  cases table.find? (·.shType = type) with
  | none => simp
  | some found => simp

/-- The name that is found is the one in the string table that the symbol table designates, exactly if
the first string table, or section 0, has the same string there. -/
theorem symbolicate_iff (single : table.filter (·.shType == shtSymtab) = [symtab])
    (designated : table[symtab.shLink]? = some strtab)
    (function : ∃ symbol ∈ symbols arch image symtab, isElfSymbolAFunction symbol) (ip : Nat) :
    let best := wanted ((symbols arch image symtab).filter isElfSymbolAFunction) ip
    ∃ first registered, FirstOfType table shtStrtab first ∧
      makeSymbolicator arch image table = some registered ∧
      (symbolicate registered ip = some (best.map (getString image strtab)) ↔
        ∀ symbol ∈ best, getString image first symbol = getString image strtab symbol) := by
  obtain ⟨first, isFirst⟩ : ∃ first, getShdrOfType table shtStrtab = some first := by
    cases table with
    | nil => cases designated
    | cons header rest => exact ⟨_, rfl⟩
  have found : getShdrOfType table shtSymtab = some symtab := by
    rw [getShdrOfType_eq, ← List.head?_filter, show table.filter (·.shType = shtSymtab) = [symtab] from single]
    rfl
  refine ⟨first, _, firstOfType_iff.mpr isFirst, by rw [makeSymbolicator, found, isFirst]; rfl, ?_⟩
  have some : 0 < ((symbols arch image symtab).filter isElfSymbolAFunction).length := by
    obtain ⟨symbol, member, function⟩ := function
    exact List.length_pos_of_mem (List.mem_filter.mpr ⟨member, function⟩)
  rw [symbolicate, List.length_map, if_pos some, foldl_better, Option.map_map, Option.some.injEq]
  cases wanted ((symbols arch image symtab).filter isElfSymbolAFunction) ip with
  | none => exact iff_of_true rfl nofun
  | some symbol => simp

/-- Two functions and a variable, with their names in the section at 300. -/
def sampleImage : Image where
  symbol _ i := [⟨1, 0x1000, sttFunc⟩, ⟨6, 0x2000, sttFunc⟩].getD i ⟨1, 0x2100, 1⟩
  string address offset :=
    if address = 300 then if offset = 1 then [109, 97, 105, 110] else [101, 120, 105, 116]
    else [46, 116, 101, 120, 116]

/-- With the names of the sections behind those of the symbols, the second function is found by its
name. -/
theorem symbolicate_iff_sample :
    ∃ registered, makeSymbolicator .i386 sampleImage [⟨0, 0, 0, 0⟩, ⟨shtSymtab, 200, 48, 2⟩,
        ⟨shtStrtab, 300, 11, 0⟩, ⟨shtStrtab, 100, 8, 0⟩] = some registered ∧
      symbolicate registered 0x2345 = some (some [101, 120, 105, 116]) := by
  obtain ⟨first, registered, isFirst, made, same⟩ := @symbolicate_iff .i386 sampleImage
    [⟨0, 0, 0, 0⟩, ⟨shtSymtab, 200, 48, 2⟩, ⟨shtStrtab, 300, 11, 0⟩, ⟨shtStrtab, 100, 8, 0⟩] _ _ rfl rfl
    ⟨_, List.mem_cons_self, rfl⟩ 0x2345
  cases firstOfType_iff.mp isFirst
  exact ⟨registered, made, same.mpr fun _ _ => rfl⟩

/-- The names of the sections come before the names of the symbols. -/
theorem symbolicate_wrong_table :
    (makeSymbolicator .i386 sampleImage [⟨shtStrtab, 100, 8, 0⟩, ⟨shtSymtab, 200, 48, 2⟩,
      ⟨shtStrtab, 300, 11, 0⟩]).bind (symbolicate · 0x1234) = some (some [46, 116, 101, 120, 116]) := by
  decide

end

end Symbolicator

end FlapjackOS.Elf.Symbols
