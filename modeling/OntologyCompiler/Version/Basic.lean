import OntologyCompiler.Text.Pieces

/-!
# Semantic versions

Versions `major.minor.patch` with optional pre-release and build identifiers, their text, their order
and the faults a text can have. The numbers have no leading zero and fit 64 bits. Release beats
pre-release, and build identifiers take part in the order after all else.
-/

namespace OntologyCompiler

/-- A semantic version; an empty list of identifiers means that the part is absent. -/
structure Version where
  major : Nat
  minor : Nat
  patch : Nat
  preRelease : List String
  build : List String
  deriving DecidableEq, Repr, Inhabited

/-- The part of a version that a fault was found in. -/
inductive VersionPart where
  | major
  | minor
  | patch
  | preRelease
  | build
  deriving DecidableEq, Repr

/-- Why a text is no version. -/
inductive VersionFault where
  | unexpectedEnd (part : VersionPart)
  | unexpectedChar (part : VersionPart) (found : Char)
  | unexpectedCharAfter (part : VersionPart) (found : Char)
  | leadingZero (part : VersionPart)
  | overflow (part : VersionPart)
  | emptySegment (part : VersionPart)
  deriving DecidableEq, Repr

namespace Version

/-- The greatest number a version may hold. -/
def maxNumber : Nat := Nat.pow 2 64 - 1

/-- A number without leading zero and what follows it. -/
def scanNumber (part : VersionPart) (value length : Nat) : List Char → Except VersionFault (Nat × List Char)
  | [] => if length = 0 then .error (.unexpectedEnd part) else .ok (value, [])
  | c :: cs =>
    if c.isDigit then
      if value = 0 ∧ 0 < length then .error (.leadingZero part)
      else
        let next := value * 10 + (c.toNat - 48)
        if maxNumber < next then .error (.overflow part)
        else scanNumber part next (length + 1) cs
    else if length = 0 then .error (.unexpectedChar part c)
    else .ok (value, c :: cs)

/-- What follows a dot. -/
def scanDot (part : VersionPart) : List Char → Except VersionFault (List Char)
  | [] => .error (.unexpectedEnd part)
  | c :: cs => if c = '.' then .ok cs else .error (.unexpectedCharAfter part c)

/-- The characters of an identifier. -/
def isIdentifierChar (c : Char) : Bool := c.isAlphanum || c == '-'

/-- Whether a segment consists of digits. -/
def isNumeric (segment : List Char) : Bool := segment.all Char.isDigit

/-- The fault of one segment, if any: it is empty, or a pre-release number with a leading zero. -/
def segmentFault? (part : VersionPart) (segment : List Char) : Option VersionFault :=
  if segment.isEmpty then some (.emptySegment part)
  else if part = .preRelease ∧ isNumeric segment ∧ 1 < segment.length ∧ segment.head? = some '0' then
    some (.leadingZero part)
  else none

/-- Dot separated identifiers at the start of a text and what follows them. The first faulty segment is
reported. -/
def scanIdentifiers (part : VersionPart) (cs : List Char) :
    Except VersionFault (List String × List Char) :=
  let isPart (c : Char) : Bool := isIdentifierChar c || c == '.'
  let segments := Text.pieces '.' (cs.takeWhile isPart)
  match segments.findSome? (segmentFault? part) with
  | some fault => .error fault
  | none => .ok (segments.map String.ofList, cs.dropWhile isPart)

/-- The identifiers after a mark, if the mark follows. -/
def scanMarked (mark : Char) (part : VersionPart) (cs : List Char) :
    Except VersionFault (Option (List String) × List Char) :=
  match cs with
  | c :: rest =>
    if c = mark then (scanIdentifiers part rest).map fun parts => (some parts.1, parts.2)
    else .ok (none, cs)
  | [] => .ok (none, cs)

/-- Reads a version. -/
def parse (cs : List Char) : Except VersionFault Version := do
  let (major, cs) ← scanNumber .major 0 0 cs
  let cs ← scanDot .major cs
  let (minor, cs) ← scanNumber .minor 0 0 cs
  let cs ← scanDot .minor cs
  let (patch, cs) ← scanNumber .patch 0 0 cs
  let (pre, cs) ← scanMarked '-' .preRelease cs
  let (build, cs) ← scanMarked '+' .build cs
  match cs with
  | [] => pure ⟨major, minor, patch, pre.getD [], build.getD []⟩
  | c :: _ =>
    let last : VersionPart :=
      if build.isSome then .build else if pre.isSome then .preRelease else .patch
    throw (.unexpectedCharAfter last c)

/-- The text of a version. -/
def render (v : Version) : String :=
  let part (mark : String) (segments : List String) : String :=
    if segments.isEmpty then "" else mark ++ Text.join "." segments
  v.major.repr ++ "." ++ v.minor.repr ++ "." ++ v.patch.repr ++ part "-" v.preRelease ++
    part "+" v.build

/-- Compares pre-release identifiers: numbers by value and before words, words by their characters. -/
def compareIdentifier (a b : String) : Ordering :=
  match isNumeric a.toList, isNumeric b.toList with
  | true, true => (compare a.length b.length).then (compare a b)
  | true, false => .lt
  | false, true => .gt
  | false, false => compare a b

/-- Compares build identifiers, in which numbers may have leading zeros: of equal numbers the one with
more zeros is the greater. -/
def compareBuildIdentifier (a b : String) : Ordering :=
  match isNumeric a.toList, isNumeric b.toList with
  | true, true =>
    let x := String.ofList (a.toList.dropWhile (· == '0'))
    let y := String.ofList (b.toList.dropWhile (· == '0'))
    (compare x.length y.length).then ((compare x y).then (compare a.length b.length))
  | true, false => .lt
  | false, true => .gt
  | false, false => compare a b

/-- Compares lists segment by segment; a proper start is less. -/
def compareSegments (cmp : String → String → Ordering) : List String → List String → Ordering
  | [], [] => .eq
  | [], _ :: _ => .lt
  | _ :: _, [] => .gt
  | a :: as, b :: bs => (cmp a b).then (compareSegments cmp as bs)

/-- Compares pre-release parts; none at all is the greatest. -/
def comparePreRelease : List String → List String → Ordering
  | [], [] => .eq
  | [], _ :: _ => .gt
  | _ :: _, [] => .lt
  | as@(_ :: _), bs@(_ :: _) => compareSegments compareIdentifier as bs

/-- The order of versions. -/
def order (v w : Version) : Ordering :=
  (compare v.major w.major).then <|
  (compare v.minor w.minor).then <|
  (compare v.patch w.patch).then <|
  (comparePreRelease v.preRelease w.preRelease).then <|
  compareSegments compareBuildIdentifier v.build w.build

end Version

end OntologyCompiler
