import PathFormula.Text.Blank

/-!
# S-expressions

A text is cut into parentheses and maximal runs of other non-blank characters. The reader goes
through these tokens once, with the lists that are still open on a stack; the tokens of an
expression are read back as that expression (`resume_tokens`).
-/
namespace PathFormula

inductive SExpr where
  | atom (text : String)
  | list (items : List SExpr)
  deriving Repr

namespace SExpr

inductive Token where
  | left
  | right
  | atom (text : String)
  deriving DecidableEq, Repr

/-- The atom of the characters read since the last boundary, newest first. -/
def pendingAtom (pending : List Char) : List Token :=
  if pending.isEmpty then [] else [.atom (String.ofList pending.reverse)]

def scan : List Char → List Char → List Token
  | pending, [] => pendingAtom pending
  | pending, c :: rest =>
      if c = '(' then pendingAtom pending ++ .left :: scan [] rest
      else if c = ')' then pendingAtom pending ++ .right :: scan [] rest
      else if Text.isBlank c then pendingAtom pending ++ scan [] rest
      else scan (c :: pending) rest

def tokenize (text : List Char) : List Token := scan [] text

inductive ReadError where
  | endOfInput
  | unbalanced
  | unexpectedRight
  | trailing (input : String)
  deriving DecidableEq, Repr

def ReadError.message : ReadError → String
  | .endOfInput => "Unexpected end of input"
  | .unbalanced => "Unbalanced parentheses"
  | .unexpectedRight => "Unexpected ')'"
  | .trailing input => "Trailing input after S-expression: " ++ input

/-- Read one expression. `stack` holds the items of the open lists, the innermost list and the
newest item first; the answer comes with the tokens that are left. -/
def resume : List (List SExpr) → List Token → Except ReadError (SExpr × List Token)
  | [], [] => .error .endOfInput
  | _ :: _, [] => .error .unbalanced
  | stack, .left :: rest => resume ([] :: stack) rest
  | [], .right :: _ => .error .unexpectedRight
  | [items], .right :: rest => .ok (.list items.reverse, rest)
  | items :: outer :: stack, .right :: rest =>
      resume ((.list items.reverse :: outer) :: stack) rest
  | [], .atom text :: rest => .ok (.atom text, rest)
  | items :: stack, .atom text :: rest => resume ((.atom text :: items) :: stack) rest

/-- A text holds one expression and nothing after it. -/
def read (text : List Char) : Except ReadError SExpr :=
  match resume [] (tokenize text) with
  | .error e => .error e
  | .ok (e, []) => .ok e
  | .ok (_, _ :: _) => .error (.trailing (String.ofList text))

mutual

def text : SExpr → String
  | .atom a => a
  | .list items => "(" ++ itemsText items ++ ")"

/-- The items, one blank between two. -/
def itemsText : List SExpr → String
  | [] => ""
  | [item] => item.text
  | item :: next :: rest => item.text ++ " " ++ itemsText (next :: rest)

end

mutual

def tokens : SExpr → List Token
  | .atom a => [.atom a]
  | .list items => .left :: (itemsTokens items ++ [.right])

def itemsTokens : List SExpr → List Token
  | [] => []
  | item :: rest => item.tokens ++ itemsTokens rest

end

/-- Go on after a finished expression. -/
def finish (e : SExpr) : List (List SExpr) → List Token → Except ReadError (SExpr × List Token)
  | [], rest => .ok (e, rest)
  | items :: stack, rest => resume ((e :: items) :: stack) rest

mutual

theorem resume_tokens (e : SExpr) (stack : List (List SExpr)) (rest : List Token) :
    resume stack (e.tokens ++ rest) = finish e stack rest := by
  match e with
  | .atom a => cases stack <;> simp [tokens, resume, finish]
  | .list items =>
    have h := resume_itemsTokens items [] stack (.right :: rest)
    simp only [tokens, List.cons_append, List.append_assoc, resume]
    simp only [List.nil_append] at h ⊢
    rw [h]
    cases stack <;> simp [resume, finish]

theorem resume_itemsTokens (items : List SExpr) (before : List SExpr)
    (stack : List (List SExpr)) (rest : List Token) :
    resume (before :: stack) (itemsTokens items ++ rest) =
      resume ((items.reverse ++ before) :: stack) rest := by
  match items with
  | [] => simp [itemsTokens]
  | item :: later =>
    simp only [itemsTokens, List.append_assoc]
    rw [resume_tokens item, finish, resume_itemsTokens later]
    simp

end

end SExpr

end PathFormula
