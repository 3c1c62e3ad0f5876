/-!
# Source locations

A range of offsets, in a named source or in the only one.
-/
namespace PathFormula.Source

structure Location where
  source : Option String := none
  start : Nat := 0
  stop : Nat := 0
  deriving DecidableEq, Repr

def Location.text (location : Location) : String :=
  let range := toString location.start ++ "-" ++ toString location.stop
  match location.source with
  | some source => source ++ ":" ++ range
  | none => range

end PathFormula.Source
