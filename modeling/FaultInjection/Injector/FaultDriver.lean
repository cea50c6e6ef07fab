import FaultInjection.Injector.Module

/-!
# The fault driver

The generated module that receives the original value of every faulted wire and
drives its replacement.
-/

namespace FaultInjection

open Text

/-- `FaultDriver`, the default type of the generated module. -/
def faultDriverType : Text := "FaultDriver"

/-- The comment and the assignment generated for the fault with an index. -/
def faultDriverBlock (index : Nat) (fault : Text) : Text :=
  "\n\n  // fault injection from " ++ fault ++ "\n  assign faulty_values[" ++
    decimal index ++ "] = 0;"

def faultDriverHeader (faults : List Text) : Text :=
  if faults.length = 1 then
    "module " ++ faultDriverType ++
      " (\n  input original_values;\n  output faulty_values;\n)"
  else
    -- an empty list prints the bound -1
    let bound : Text := if faults.length = 0 then "-1" else decimal (faults.length - 1)
    "module " ++ faultDriverType ++ " (\n  input  [" ++ bound ++
      ":0] original_values;\n  output [" ++ bound ++ ":0] faulty_values;\n)"

def faultDriverBody (faults : List Text) : Text :=
  match faults with
  | [fault] => "\n\n  // fault injection from " ++ fault ++ "\n  assign faulty_values = 0;"
  | _ => faults.zipIdx.flatMap fun entry => faultDriverBlock entry.2 entry.1

def faultDriverText (faults : List Text) : Text :=
  faultDriverHeader faults ++ faultDriverBody faults ++ "\nendmodule"

variable [UnicodeData]

def generateFaultDriver (faults : List Text) : Except PythonError Module :=
  Module.make faultDriverType (faultDriverText faults)

end FaultInjection
