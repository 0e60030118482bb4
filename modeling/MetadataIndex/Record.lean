import MetadataIndex.Reference

/-! Records an analyzer left in a module, and the table that holds them. A record without a member
designates the type itself, with a member every member of that name. A lazy table makes its records
on first reading and keeps them. -/
namespace MetadataIndex

structure Record where
  type : TypeName
  member : Option String := none
  marker : Option TypeName := none
  deriving DecidableEq, Repr

namespace Record

def hasMember (r : Record) : Bool := r.member.isSome

def text (r : Record) : String :=
  r.type ++ (r.member.map ("::" ++ ·)).getD "" ++ (r.marker.map fun m => " [" ++ m ++ "]").getD ""

end Record

structure RecordTable where
  source : List Record := []
  cell : Option (List Record) := some []
  runs : Nat := 0
  deriving DecidableEq, Repr

namespace RecordTable

def eager (records : List Record) : RecordTable := ⟨[], some records, 0⟩

def delayed (records : List Record) : RecordTable := ⟨records, none, 0⟩

def ready (t : RecordTable) : Bool := t.cell.isSome

def content (t : RecordTable) : List Record := t.cell.getD t.source

def opened (t : RecordTable) : RecordTable :=
  match t.cell with
  | some _ => t
  | none => { t with cell := some t.source, runs := t.runs + 1 }

theorem openedContent (t : RecordTable) : t.opened.content = t.content := by
  cases h : t.cell <;> simp [opened, content, h]

theorem openedTwice (t : RecordTable) : t.opened.opened = t.opened := by
  cases h : t.cell <;> simp [opened, h]

theorem openedRuns (t : RecordTable) : t.opened.runs = t.runs + if t.ready then 0 else 1 := by
  cases h : t.cell <;> simp [opened, ready, h]

end RecordTable
end MetadataIndex
