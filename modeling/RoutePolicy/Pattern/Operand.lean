import RoutePolicy.Pattern.Form

/-!
# Operands

After its keywords a statement has operands, each behind exactly one blank character.  An operand
offers one or more forms, each of which writes a field, and says whether it has to be there:

* `required`    it has to be;
* `optional`    it is taken when it can be, and skipped when the rest fits only without it;
* `reluctant`   it is skipped when the rest fits without it, and taken otherwise.

A reluctant operand leaves a closing `and` or `or` to the operand behind it.  `readOperands` tries
the possibilities in that order and keeps the first that uses up the whole text.
-/

namespace RoutePolicy

/-- What a statement said: the fields it wrote, each with its text. -/
abbrev Captures := List (String × String)

/-- Whether an operand has to be there, and if not, which choice is tried first: an optional one is
taken if possible, a reluctant one skipped. -/
inductive Presence where
  | required
  | optional
  | reluctant
deriving DecidableEq, Repr

/-- One place behind the keywords of a statement. -/
structure Operand where
  /-- whether it has to be there -/
  presence : Presence
  /-- the forms it may take, most preferred first, each with the field it writes -/
  choices : List (String × Form)
deriving DecidableEq, Repr

namespace Operand

/-- An operand that writes one field. -/
def single (presence : Presence) (field : String) (forms : List Form) : Operand :=
  { presence, choices := forms.map fun form => (field, form) }

/-- An optional fixed word. -/
def token (field word : String) : Operand :=
  single .optional field [.oneOf [word]]

/-- The ways to take an operand off the front of a text, most preferred first: the field it
writes, and what is left. -/
def ways (o : Operand) : List Char → List ((String × String) × List Char)
  | [] => []
  | c :: cs =>
    if Text.isBlank c then
      o.choices.filterMap fun choice =>
        (choice.2.read cs).map fun r => ((choice.1, String.ofList r.1), r.2)
    else []

end Operand

/-- Reads operands that make up a whole text. -/
def readOperands : List Operand → List Char → Option Captures
  | [], [] => some []
  | [], _ :: _ => none
  | o :: os, cs =>
    let taken := (o.ways cs).findSome? fun way => (readOperands os way.2).map (way.1 :: ·)
    match o.presence with
    | .required => taken
    | .optional => taken <|> readOperands os cs
    | .reluctant => readOperands os cs <|> taken

end RoutePolicy
