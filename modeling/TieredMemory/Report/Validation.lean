import TieredMemory.Machine.Validation

/-!
# The findings on a machine
-/
set_option autoImplicit false

namespace TieredMemory.Report

def findingLine (f : Finding) : String := s!"  [{f.severity.name}] {f.message}\n"

def errorCount (findings : List Finding) : Nat := findings.countP Finding.isError

def verdict (machineName : String) (findings : List Finding) : String :=
  if findings.isEmpty then s!"System '{machineName}' is valid.\n"
  else s!"System '{machineName}' is valid with {findings.length} warning(s).\n"

/-- The findings, and the verdict unless there are errors. -/
def findings (machineName : String) (findings : List Finding) : String :=
  String.join (findings.map findingLine) ++
    if errorCount findings = 0 then verdict machineName findings else ""

end TieredMemory.Report
