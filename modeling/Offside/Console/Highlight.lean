import Offside.Token.Layout

/-!
# Highlighting

Literals and reserved words of an input line are wrapped into terminal colours. All other text
stays as it is.
-/

namespace Offside.Console

/-- The terminal colour of a token, if it has one. -/
def colour? : Kind → Option String
  | .string _ => some "32"
  | .number _ => some "33"
  | .keyword k => some (if k.isConstant then "35" else "1;34")
  | _ => none

/-- Text in a terminal colour. -/
def paint (colour : String) (text : List Char) : List Char :=
  "\x1b[".toList ++ colour.toList ++ 'm' :: text ++ "\x1b[0m".toList

/-- The line from the byte offset `cursor` on, with the given tokens painted. -/
def highlightFrom (line : List Char) (cursor : Nat) : List Token → List Char
  | [] => Text.slice line ⟨cursor, Text.byteLength line⟩
  | t :: ts =>
    match colour? t.kind with
    | none => highlightFrom line cursor ts
    | some colour =>
      if t.span.start < cursor ∨ Text.byteLength line < t.span.stop then
        highlightFrom line cursor ts
      else
        Text.slice line ⟨cursor, t.span.start⟩ ++ paint colour (Text.slice line t.span) ++
          highlightFrom line t.span.stop ts

/-- The line with its literals and reserved words painted. -/
def highlight (line : String) : String :=
  String.ofList (highlightFrom line.toList 0 (scan line).tokens)

end Offside.Console
