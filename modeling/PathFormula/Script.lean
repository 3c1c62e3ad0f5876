import PathFormula.Term.Text

/-!
# Commands and scripts

A script is the list of its commands; its text has one command a line, without a line end after
the last.
-/
namespace PathFormula

inductive Command where
  | setLogic (logic : String)
  | setOption (key value : String)
  | declare (s : Symbol)
  | assert (t : Term)
  | checkSat
  | getValue (terms : List Term)
  | push (count : Nat)
  | pop (count : Nat)
  | comment (text : String)
  | exit
  deriving DecidableEq, Repr

def Command.text : Command → String
  | .setLogic logic => "(set-logic " ++ logic ++ ")"
  | .setOption key value => "(set-option :" ++ key ++ " " ++ value ++ ")"
  | .declare s => s.declaration
  | .assert t => "(assert " ++ t.text ++ ")"
  | .checkSat => "(check-sat)"
  | .getValue terms => "(get-value (" ++ " ".intercalate (terms.map Term.text) ++ "))"
  | .push count => "(push " ++ toString count ++ ")"
  | .pop count => "(pop " ++ toString count ++ ")"
  | .comment text => ";; " ++ text
  | .exit => "(exit)"

abbrev Script := List Command

namespace Script

def text (script : Script) : String := "\n".intercalate (script.map Command.text)

/-- Every free symbol is declared once, before the first assertion. -/
def ofAssertions (terms : List Term) : Script :=
  (Term.freeSymbolsOf terms).map Command.declare ++ terms.map Command.assert

end Script

end PathFormula
