import EntityScript.Text.CaseTable

/-!
Lowercasing of whole texts. Names in scripts are compared after it, so it covers all of Unicode: the
dotted capital I becomes two characters, and a capital sigma that ends a word becomes the final
form. All other characters are mapped one by one.
-/

namespace EntityScript.Text

def inRanges (ranges : List (Nat × Nat)) (c : Char) : Bool :=
  ranges.any fun (first, last) => first ≤ c.toNat && c.toNat ≤ last

/-- Case rules look through this character. -/
def isCaseIgnorable (c : Char) : Bool := inRanges caseIgnorableRanges c

/-- The first character that case rules do not look through is cased. -/
def meetsCased (cs : List Char) : Bool :=
  match cs.dropWhile isCaseIgnorable with
  | [] => false
  | c :: _ => inRanges casedRanges c

def lowerChar (c : Char) : List Char :=
  if c = 'İ' then ['i', '\u0307']
  else
    match caseRuns.find? (·.covers c.toNat) with
    | some run => [Char.ofNat (c.toNat + run.shift).toNat]
    | none => [c]

/-- Lowercases `cs`, which follows `before` (given backwards). -/
def lowerFrom (before : List Char) : List Char → List Char
  | [] => []
  | c :: rest =>
    let lower :=
      if c = 'Σ' then [if meetsCased before && !meetsCased rest then 'ς' else 'σ']
      else lowerChar c
    lower ++ lowerFrom (c :: before) rest

def lowercase (s : String) : String := String.ofList (lowerFrom [] s.toList)

def asciiLowercase (s : String) : String := s.map Char.toLower

/-- The texts differ at most in the case of ASCII letters. -/
def sameAsciiCaseless (s t : String) : Bool := asciiLowercase s == asciiLowercase t

end EntityScript.Text
