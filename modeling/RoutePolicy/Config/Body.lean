import RoutePolicy.Recognition
import RoutePolicy.Text.Lines

/-!
# Policies in a configuration text

A policy starts at a header line, which stands in the first column, and runs through its
`end-policy` line.  An indented `route-policy` line attaches a policy somewhere and is no header.

* `policyNames`   the names in the headers of a text;
* `policyBlock`   the lines of a policy as they stand, header and `end-policy` included;
* `bodyLines`     the trimmed lines between them that say something.
-/

namespace RoutePolicy

/-- The name of the policy that a line opens. -/
def headerName? (line : String) : Option String :=
  if (line.toList.head?).any Text.isBlank then none
  else (recognize (· = .header) line).bind fun m => m.text? "name"

/-- The names of the policies that a text opens, in order; a repeated name stays repeated. -/
def policyNames (text : String) : List String :=
  (Line.ofText text).filterMap headerName?

/-- The line that closes a policy. -/
def endLine : String := "end-policy"

/-! ## Blocks -/

/-- The lines of every block with this name, where `inside` says whether the lines before end in
such a block. -/
def blockFrom (name : String) (inside : Bool) : List String → List String
  | [] => []
  | line :: rest =>
    let inside : Bool := match headerName? line with
      | some header => header = name
      | none => inside
    if inside then line :: blockFrom name (Line.trim line ≠ endLine) rest
    else blockFrom name false rest

/-- The lines of a policy in a text. -/
def policyBlock (name text : String) : List String :=
  blockFrom name false (Line.ofText text)

/-! ## Bodies -/

/-- Whether a trimmed line says nothing: it is empty, a comment, or closes a branch. -/
def isFiller (line : String) : Bool :=
  line = "" || line.toList.head? = some '!' || line = "endif"

/-- The body lines with this name, where `inside` says whether the lines before end in such a
body. -/
def bodyFrom (name : String) (inside : Bool) : List String → List String
  | [] => []
  | raw :: rest =>
    match headerName? raw with
    | some header => bodyFrom name (header = name) rest
    | none =>
      let line := Line.trim raw
      if isFiller line then bodyFrom name inside rest
      else if line = endLine then bodyFrom name false rest
      else if inside then line :: bodyFrom name inside rest
      else bodyFrom name inside rest

/-- The body of a policy in a text.  A text without any header is a body as it stands. -/
def bodyLines (name text : String) : List String :=
  let lines := Line.ofText text
  bodyFrom name (lines.all fun line => (headerName? line).isNone) lines

end RoutePolicy
