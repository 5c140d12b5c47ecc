import ClassTable.Text.Span
import ClassTable.Text.Quoted

/-!
# Tokens

The class table never reads source text itself. It is handed tokens: the exact text of a lexical
unit together with the span it came from.
-/

namespace ClassTable

/-- A lexical unit: its exact text and its place in the source. -/
structure Token where
  /-- The source text, verbatim. -/
  value : String
  /-- Where it stands. -/
  span : Span := Span.dummy
  deriving DecidableEq

namespace Token

/-- Written form in diagnostics: the quoted text, then the span. -/
def describe (t : Token) : String := Text.quote t.value ++ " @ " ++ t.span.text

/-- The text of a name that may be missing; a missing name is empty. -/
def nameText (t : Option Token) : String := (t.map Token.value).getD ""

end Token

end ClassTable
