import SignedHttp.Fault
import SignedHttp.Text.Ascii
import SignedHttp.Text.Blank

namespace SignedHttp

def pseudoNames : List (List Char) :=
  ["(request-target)".toList, "(created)".toList, "(expires)".toList]

def isHeaderText (cs : List Char) : Bool :=
  cs.isEmpty || pseudoNames.contains cs || Text.isLowerToken cs

structure HeaderName where
  text : String
  wellFormed : isHeaderText text.toList = true
  deriving DecidableEq

namespace HeaderName

inductive Defect where
  | empty
  | malformed (given : String)
  deriving DecidableEq, Repr

instance : Reportable Defect where
  fault
    | .empty => ⟨.validation, "header name must not be empty"⟩
    | .malformed given => ⟨.validation, s!"'{given}' is not a valid header name"⟩

/-- Stands for no header. Nothing is signed under it. -/
def empty : HeaderName := ⟨"", by decide⟩
def requestTarget : HeaderName := ⟨"(request-target)", by decide⟩
def created : HeaderName := ⟨"(created)", by decide⟩
def expires : HeaderName := ⟨"(expires)", by decide⟩
def date : HeaderName := ⟨"date", by decide⟩
def digest : HeaderName := ⟨"digest", by decide⟩

def isEmpty (h : HeaderName) : Bool :=
  h.text.isEmpty

def isPseudo (h : HeaderName) : Bool :=
  h.text.toList.head? == some '('

/-- The name that a text means: white space around it and capitals make no difference. -/
def ofText (given : String) : Except Defect HeaderName :=
  let cs := Text.lower (Text.trim given.toList)
  if cs.isEmpty then .error .empty
  else if h : isHeaderText cs = true then .ok ⟨String.ofList cs, by simpa using h⟩
  else .error (.malformed given)

theorem ext {g h : HeaderName} (e : g.text = h.text) : g = h := by
  cases g
  cases h
  simp_all

end HeaderName

end SignedHttp
