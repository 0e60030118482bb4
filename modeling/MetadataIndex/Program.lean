import MetadataIndex.Record
import MetadataIndex.Universe

/-! Modules of compiled code and the running program that loads them. Inside a module the last
definition of a name counts and keeps the place of the first; across modules the first loaded wins,
and a second module of the same identity is refused. -/
namespace MetadataIndex
variable {φ : Type}

theorem ownedNothing (id : ModuleId) : ∀ d ∈ (∅ : OrderedSet (@TypeDef.name φ)).toList, d.owner = id := by simp

structure CodeModule (φ : Type := Recipe) where
  id : ModuleId
  instrumented : Bool := false
  types : OrderedSet (@TypeDef.name φ) := ∅
  table : RecordTable := {}
  owned : ∀ d ∈ types.toList, d.owner = id := by exact ownedNothing _
  deriving DecidableEq, Repr

namespace CodeModule

def define (m : CodeModule φ) (d : TypeDef φ) : CodeModule φ :=
  { m with
    types := m.types.put { d with owner := m.id }
    owned := by
      intro e member
      rcases OrderedSet.memPut.1 member with rfl | ⟨old, _⟩
      · rfl
      · exact m.owned e old }

def withRecords (m : CodeModule φ) (table : RecordTable) : CodeModule φ :=
  { m with table, instrumented := true }

def find? (m : CodeModule φ) (name : TypeName) : Option (TypeDef φ) := m.types.find? name

def recordList (m : CodeModule φ) : List Record := if m.instrumented then m.table.content else []

def opened (m : CodeModule φ) : CodeModule φ :=
  if m.instrumented then { m with table := m.table.opened } else m

theorem findDefine {m : CodeModule φ} {d : TypeDef φ} {name : TypeName} :
    (m.define d).find? name = if d.name = name then some { d with owner := m.id } else m.find? name :=
  OrderedSet.findPut

theorem openedRecordList (m : CodeModule φ) : m.opened.recordList = m.recordList := by
  by_cases h : m.instrumented <;> simp [opened, recordList, h, RecordTable.openedContent]

theorem openedTypes (m : CodeModule φ) : m.opened.types = m.types := by
  by_cases h : m.instrumented <;> simp [opened, h]

theorem openedId (m : CodeModule φ) : m.opened.id = m.id := by
  by_cases h : m.instrumented <;> simp [opened, h]

end CodeModule

def definitionsOf (modules : List (CodeModule φ)) : List (TypeDef φ) := modules.flatMap fun m => m.types.toList

structure Program (φ : Type := Recipe) where
  modules : List (CodeModule φ) := []
  knownTypes : Universe φ := {}
  known : knownTypes = .ofDefs (definitionsOf modules) := by rfl
  deriving Repr

namespace Program

@[ext]
theorem ext {p q : Program φ} (same : p.modules = q.modules) : p = q := by
  obtain ⟨modules, _, known⟩ := p
  obtain ⟨_, _, known'⟩ := q
  subst same known known'
  rfl

instance [DecidableEq φ] : DecidableEq (Program φ) := fun p q =>
  decidable_of_iff (p.modules = q.modules) ⟨ext, fun same => same ▸ rfl⟩

def module? (p : Program φ) (id : ModuleId) : Option (CodeModule φ) :=
  p.modules.find? fun m => m.id = id

def load (p : Program φ) (m : CodeModule φ) : Bool × Program φ :=
  if (p.module? m.id).isSome then (false, p)
  else
    (true,
      { modules := p.modules ++ [m]
        knownTypes := p.knownTypes.extend m.types.toList
        known := by
          simp [p.known, definitionsOf, Universe.ofDefs, Universe.extend, OrderedSet.insertAll] })

def ofModules (modules : List (CodeModule φ)) : Program φ :=
  modules.foldl (fun p m => (p.load m).2) {}

def openedWhere (p : Program φ) (chosen : ModuleId → Bool) : Program φ :=
  { modules := p.modules.map fun m => if chosen m.id then m.opened else m
    knownTypes := p.knownTypes
    known := by
      have same : ∀ m : CodeModule φ, (if chosen m.id then m.opened else m).types = m.types := by
        intro m
        split
        · exact m.openedTypes
        · rfl
      simp [p.known, definitionsOf, List.flatMap_map, same] }

def opened (p : Program φ) (id : ModuleId) : Program φ := p.openedWhere (· = id)

def allOpened (p : Program φ) : Program φ := p.openedWhere fun _ => true

theorem findKnown {p : Program φ} {name : TypeName} :
    p.knownTypes.find? name = (definitionsOf p.modules).find? fun d => d.name = name := by
  rw [p.known, Universe.findOfDefs]

end Program
end MetadataIndex
