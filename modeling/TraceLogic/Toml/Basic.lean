/-!
# TOML documents

The values of a TOML document. Floats and moments of time are told apart from other values, but
nothing here needs to know which ones they are.
-/

namespace TraceLogic

/-- A TOML value. -/
inductive Toml
  | string (value : String)
  | integer (value : Int)
  | float
  | boolean (value : Bool)
  | moment
  | array (items : List Toml)
  | table (entries : List (String × Toml))

namespace Toml

instance : Inhabited Toml := ⟨.table []⟩

end Toml

end TraceLogic
