/-! Records, lists and options laid out on one line. -/

namespace DemandLex.Text

def record (name : String) (fields : List (String × String)) : String :=
  name ++ " \x7b " ++ ", ".intercalate (fields.map fun (field, value) => field ++ ": " ++ value) ++
    " \x7d"

def list (items : List String) : String := "[" ++ ", ".intercalate items ++ "]"

def option : Option String → String
  | none => "None"
  | some value => "Some(" ++ value ++ ")"

end DemandLex.Text
