namespace SignedHttp.Text

/-- Lower case of the letters `A` to `Z`; every other character stays. -/
def lower (cs : List Char) : List Char :=
  cs.map Char.toLower

def lowered (s : String) : String :=
  String.ofList (lower s.toList)

def equalIgnoringCase (a b : String) : Bool :=
  lower a.toList == lower b.toList

def isTokenChar (c : Char) : Bool :=
  c.isAlphanum || "!#$%&'*+-.^_`|~".toList.contains c

def isToken (cs : List Char) : Bool :=
  !cs.isEmpty && cs.all isTokenChar

/-- Tokens written without upper case, the form in which names are compared. -/
def isLowerToken (cs : List Char) : Bool :=
  isToken cs && cs.all (fun c => !c.isUpper)

end SignedHttp.Text
