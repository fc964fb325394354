import OntologyCompiler.Version.Basic

/-!
# Version labels

A label is a version as written for a schema, with an optional `v` in front and one to three numbers;
missing numbers are zero. Labels are ordered by version and, of equal versions, by their text.
-/

namespace OntologyCompiler

/-- A label together with the version it stands for. -/
structure VersionLabel where
  version : Version
  label : String
  deriving DecidableEq, Repr, Inhabited

namespace VersionLabel

/-- The characters of a label with the leading `v` removed and missing numbers filled in. -/
def padded (label : List Char) : List Char :=
  let bare := (Text.dropStart? ['v'] label).getD label
  match bare.count '.' with
  | 0 => bare ++ ".0.0".toList
  | 1 => bare ++ ".0".toList
  | _ => bare

/-- Reads a label. -/
def parse (label : String) : Except VersionFault VersionLabel :=
  (Version.parse (padded label.toList)).map fun version => ⟨version, label⟩

/-- Labels in order of their versions, then of their texts. -/
def order (a b : VersionLabel) : Ordering :=
  (a.version.order b.version).then (compare a.label b.label)

/-- The labels in ascending order. -/
def sort (labels : List VersionLabel) : List VersionLabel :=
  labels.mergeSort fun a b => (order a b).isLE

/-- The greatest label; of equal ones the last. -/
def latest : List VersionLabel → Option VersionLabel
  | [] => none
  | a :: rest => some (rest.foldl (fun best b => if order best b = .gt then best else b) a)

/-- The word that stands for the greatest label. -/
def latestWord : String := "latest"

/-- Whether a request names the greatest label, in any letter case. -/
def isLatestAlias (requested : String) : Bool := Text.lowerAscii requested == latestWord

end VersionLabel

namespace VersionPart

/-- The part as faults name it. -/
def text : VersionPart → String
  | .major => "major version number"
  | .minor => "minor version number"
  | .patch => "patch version number"
  | .preRelease => "pre-release identifier"
  | .build => "build metadata"

end VersionPart

end OntologyCompiler
