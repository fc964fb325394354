import Mathlib
import OntologyCompiler.Proofs.Order
import OntologyCompiler.Proofs.Versions.Precedence
import OntologyCompiler.Schema.Directory

/-!
# Which version is chosen

The versions of a schema are the names of directories that read as labels. They are listed in order of precedence, so in
whatever order a file system enumerates them the list is the same, and the word for the greatest label asks for the last
of it. Any other request is compared by version alone: of the labels that stand for the requested version the first in
the list is chosen, even if a later one is the very text of the request.
-/

namespace OntologyCompiler

namespace VersionLabel

variable {text : String} {a b : VersionLabel}

/-- A label keeps the text that it is read from. -/
theorem label_of_parse (h : parse text = .ok a) : a.label = text := by
  unfold parse at h
  cases hversion : Version.parse (padded text.toList) with
  | error fault =>
    rw [hversion] at h
    cases h
  | ok version =>
    rw [hversion] at h
    cases h
    rfl

/-- Whether a name reads as a label. -/
def isLabel (name : String) : Bool := (parse name).toBool

/-- A name that reads as a label reads as one label. -/
theorem isLabel_iff : isLabel text = true ↔ ∃ a, parse text = .ok a := by
  unfold isLabel
  cases parse text <;> simp [Except.toBool]

/-- The first of labels in ascending order is never kept as the greatest. -/
theorem latest_eq_getLast? {labels : List VersionLabel} (h : labels.Pairwise fun a b => a.order b = .lt) :
    latest labels = labels.getLast? := by
  cases labels with
  | nil => rfl
  | cons a rest =>
    have hfold (rest : List VersionLabel) (a : VersionLabel) (h : (a :: rest).Pairwise fun a b => a.order b = .lt) :
        some (rest.foldl (fun best b => if order best b = .gt then best else b) a) = (a :: rest).getLast? := by
      induction rest generalizing a with
      | nil => rfl
      | cons b rest ih =>
        obtain ⟨hfirst, hrest⟩ := List.pairwise_cons.mp h
        rw [List.foldl_cons, if_neg (by rw [hfirst b List.mem_cons_self]; decide), ih b hrest, List.getLast?_cons_cons]
    exact hfold rest a h

/-- No version starts with a character that is no digit. -/
theorem not_parse_of_head {c : Char} {cs : List Char} (hc : c.isDigit = false) {version : Version} :
    Version.parse (c :: cs) ≠ .ok version := by
  intro h
  have hscan : Version.scanNumber .major 0 0 (c :: cs) = .error (.unexpectedChar .major c) := by
    rw [Version.scanNumber, if_neg (by simp [hc]), if_pos rfl]
  rw [Version.parse, hscan] at h
  cases h

/-- A letter is no digit. -/
theorem isDigit_eq_false_of_toLower {c : Char} (h : c.toLower = 'l') : c.isDigit = false := by
  by_contra hdigit
  have hupper : ¬ c.isUpper := by
    simp only [Char.isDigit, Char.isUpper, Bool.not_eq_false, Bool.and_eq_true, decide_eq_true_eq, ge_iff_le,
      UInt32.le_iff_toNat_le] at hdigit ⊢
    change 48 ≤ c.val.toNat ∧ c.val.toNat ≤ 57 at hdigit
    change ¬(65 ≤ c.val.toNat ∧ c.val.toNat ≤ 90)
    omega
  rw [Char.toLower_eq_of_not_isUpper hupper] at h
  rw [h] at hdigit
  exact hdigit (by decide)

/-- A label that is read is not the word for the greatest one. -/
theorem isLatestAlias_eq_false (h : parse text = .ok a) : isLatestAlias text = false := by
  rw [isLatestAlias, beq_eq_false_iff_ne]
  intro hword
  have hlower : text.toList.map Char.toLower = latestWord.toList := by
    rw [← hword, Text.lowerAscii, String.toList_ofList]
  -- The first character is an L, so there is no mark to drop and no number starts there.
  obtain ⟨c, cs, htext, hc, -⟩ := List.map_eq_cons_iff.mp hlower
  have hmark : 'v' ≠ c := by
    rintro rfl
    exact absurd hc (by decide)
  have hbare : (Text.dropStart? ['v'] text.toList).getD text.toList = c :: cs := by
    rw [htext, Text.dropStart?, if_neg hmark, Option.getD_none]
  have hpadded : ∃ rest, padded text.toList = c :: rest := by
    unfold padded
    dsimp only
    rw [hbare]
    split <;> exact ⟨_, rfl⟩
  obtain ⟨rest, hrest⟩ := hpadded
  unfold parse at h
  rw [hrest] at h
  cases hversion : Version.parse (c :: rest) with
  | error fault =>
    rw [hversion] at h
    cases h
  | ok version => exact not_parse_of_head (isDigit_eq_false_of_toLower hc) hversion

/-- Labels that are read. -/
abbrev Read := {a : VersionLabel // parse a.label = .ok a}

/-- Precedence is a strict total order of the labels that are read. -/
theorem isStrictTotalOrder_precedes : IsStrictTotalOrder Read fun a b => a.1.Precedes b.1 := by
  have hprecedes (a b : Read) : a.1.Precedes b.1 ↔ a.1.order b.1 = .lt :=
    (order_eq_lt_iff (hasProperIdentifiers_of_parse a.2) (hasProperIdentifiers_of_parse b.2)).symm
  have hself (a : VersionLabel) : a.order a = .eq := Std.ReflCmp.compare_self
  simp only [hprecedes]
  exact {
    irrefl := fun a h => by
      rw [hself] at h
      cases h
    trans := fun _ _ _ => Std.TransCmp.lt_trans
    trichotomous := fun a b hab hba => by
      have heq : a.1.order b.1 = .eq → a.1 = b.1 := Std.LawfulEqCmp.eq_of_compare
      refine Subtype.ext (heq ?_)
      cases horder : a.1.order b.1 with
      | lt => exact absurd horder hab
      | eq => rfl
      | gt => exact absurd (Std.OrientedCmp.lt_of_gt horder) hba }

/-- Of two labels that are read at most one comes before the other. -/
theorem not_precedes_of_precedes {a b : VersionLabel} (ha : parse a.label = .ok a) (hb : parse b.label = .ok b)
    (h : a.Precedes b) : ¬ b.Precedes a := fun hback =>
  have htotal := isStrictTotalOrder_precedes
  htotal.irrefl ⟨a, ha⟩ (htotal.trans ⟨a, ha⟩ ⟨b, hb⟩ ⟨a, ha⟩ h hback)

/-- No label that is read comes before itself. -/
theorem not_precedes_self {a : VersionLabel} (ha : parse a.label = .ok a) : ¬ a.Precedes a := fun h =>
  not_precedes_of_precedes ha ha h h

end VersionLabel

namespace SchemaDirectory

open VersionLabel

variable {names names' : List String} {a : VersionLabel} {requested : String}

/-- The labels among names before they are sorted. -/
def labelsRead (names : List String) : List VersionLabel := names.filterMap fun name => (parse name).toOption

/-- The labels among names are those read, sorted. -/
theorem labelsAmong_eq (names : List String) : labelsAmong names = VersionLabel.sort (labelsRead names) := by
  rw [labelsAmong, labelsRead]
  congr 2
  funext name
  cases parse name <;> rfl

/-- A label is read among names exactly if its text is one of them and reads as it. -/
theorem mem_labelsRead : a ∈ labelsRead names ↔ a.label ∈ names ∧ parse a.label = .ok a := by
  rw [labelsRead, List.mem_filterMap]
  constructor
  · rintro ⟨name, hname, hread⟩
    cases hparse : parse name with
    | error fault =>
      rw [hparse] at hread
      cases hread
    | ok label =>
      rw [hparse] at hread
      obtain rfl := Option.some.inj hread
      obtain rfl := label_of_parse hparse
      exact ⟨hname, hparse⟩
  · rintro ⟨hname, hparse⟩
    exact ⟨a.label, hname, by rw [hparse]; rfl⟩

/-- The labels among names are those whose texts are among them. -/
theorem mem_labelsAmong : a ∈ labelsAmong names ↔ a.label ∈ names ∧ parse a.label = .ok a := by
  rw [labelsAmong_eq, VersionLabel.sort, List.mem_mergeSort, mem_labelsRead]

/-- The labels among names do not depend on the order of the names. -/
theorem labelsAmong_of_perm (h : names.Perm names') : labelsAmong names = labelsAmong names' := by
  rw [labelsAmong_eq, labelsAmong_eq]
  exact mergeSort_key_eq_of_perm VersionLabel.order (fun label => label) (h.filterMap _) fun _ _ _ _ heq =>
    Std.LawfulEqCmp.eq_of_compare heq

/-- The texts of the labels among names are the names that read as labels. -/
theorem map_label_labelsRead (names : List String) : (labelsRead names).map label = names.filter isLabel := by
  induction names with
  | nil => rfl
  | cons name names ih =>
    unfold labelsRead at ih ⊢
    rw [List.filterMap_cons, List.filter_cons, isLabel]
    cases hparse : parse name with
    | error fault => exact ih
    | ok label => exact congrArg₂ List.cons (label_of_parse hparse) ih

/-- Labels among different names are listed in ascending order. -/
theorem pairwise_labelsAmong (h : names.Nodup) : (labelsAmong names).Pairwise fun a b => a.order b = .lt := by
  have hnodup : (labelsAmong names).Nodup := by
    rw [labelsAmong_eq, VersionLabel.sort, (List.mergeSort_perm _ _).nodup_iff]
    refine List.Nodup.of_map label ?_
    rw [map_label_labelsRead]
    exact h.filter _
  have hsorted := pairwise_mergeSort_key VersionLabel.order (fun label => label) (labelsRead names)
  rw [labelsAmong_eq] at hnodup ⊢
  refine (hsorted.and hnodup).imp fun {a b} hab => ?_
  rcases Ordering.isLE_iff_eq_lt_or_eq_eq.mp hab.1 with hlt | heq
  · exact hlt
  · exact absurd (Std.LawfulEqCmp.eq_of_compare heq) hab.2

/-- The directories directly below a path have different names. -/
theorem nodup_directoryNames (t : FileTree) (path : String) : (directoryNames t path).Nodup := by
  unfold directoryNames FileTree.list
  split
  next => exact List.nodup_nil
  next location _ =>
    have hchild {entry : List String} {name : String} (h : name ∈ FileTree.childName? location entry) :
        entry = location ++ [name] := by
      unfold FileTree.childName? at h
      split at h
      next hparent =>
        have hlast : entry.getLast? = some name := h
        rw [← hparent, ← List.dropLast_append_getLast? name hlast]
        simp
      next => cases h
    rw [List.filterMap_filterMap]
    refine t.nodes.ascending.filterMap _ fun e f hef name hname name' hname' heq => ?_
    subst heq
    have hkey {e : List String × FileNode} (h : name ∈ ((FileTree.childName? location e.1).map fun name => (name, e.2)).bind
        fun e => if e.2 = .directory then some e.1 else none) : e.1 = location ++ [name] := by
      obtain ⟨entry, hentry, hif⟩ := Option.bind_eq_some_iff.mp h
      obtain ⟨child, hchildren, rfl⟩ := Option.map_eq_some_iff.mp hentry
      split at hif
      · obtain rfl := Option.some.inj hif
        exact hchild hchildren
      · cases hif
    rw [hkey hname, hkey hname', Std.compare_self] at hef
    cases hef

/-- The labels among names as they are listed: exactly the names that read as labels, each once and in order of
precedence. -/
structure Lists (names : List String) (labels : List VersionLabel) : Prop where
  labels_perm : (labels.map label).Perm (names.filter isLabel)
  labels_nodup : (labels.map label).Nodup
  read : ∀ a ∈ labels, parse a.label = .ok a
  ascending : labels.Pairwise Precedes

/-- Different names are listed. -/
theorem lists_labelsAmong (h : names.Nodup) : Lists names (labelsAmong names) := by
  have hperm : ((labelsAmong names).map label).Perm (names.filter isLabel) := by
    rw [labelsAmong_eq, ← map_label_labelsRead]
    exact (List.mergeSort_perm _ _).map _
  refine ⟨hperm, hperm.nodup_iff.mpr (h.filter _), fun a ha => (mem_labelsAmong.mp ha).2, ?_⟩
  refine (pairwise_labelsAmong h).imp_of_mem fun {a b} ha hb hab => ?_
  exact (order_eq_lt_iff (hasProperIdentifiers_of_parse (mem_labelsAmong.mp ha).2)
    (hasProperIdentifiers_of_parse (mem_labelsAmong.mp hb).2)).mp hab

/-- The greatest label among names: no version is greater, and no label of the same version has a greater text. -/
structure Greatest (names : List String) (best : VersionLabel) : Prop where
  mem : best.label ∈ names
  read : parse best.label = .ok best
  version : ∀ name ∈ names, ∀ a, parse name = .ok a → ¬ best.version.Precedes a.version
  label : ∀ name ∈ names, ∀ a, parse name = .ok a → a.version = best.version → ¬ best.label < name

/-- The last label that is listed is the greatest. -/
theorem greatest_of_getLast? {best : VersionLabel} (h : names.Nodup) (hlast : (labelsAmong names).getLast? = some best) :
    Greatest names best := by
  obtain ⟨before, hbefore⟩ := List.getLast?_eq_some_iff.mp hlast
  have hmem : best ∈ labelsAmong names := List.mem_of_mem_getLast? hlast
  have hnot {name : String} (hname : name ∈ names) {a : VersionLabel} (hread : parse name = .ok a) :
      ¬ best.Precedes a := by
    obtain rfl := label_of_parse hread
    have hlisted : a ∈ labelsAmong names := mem_labelsAmong.mpr ⟨hname, hread⟩
    have hascending := (lists_labelsAmong h).ascending
    rw [hbefore] at hlisted hascending
    rcases List.mem_append.mp hlisted with ha | ha
    · have hfirst : a.Precedes best := (List.pairwise_append.mp hascending).2.2 a ha best List.mem_cons_self
      exact not_precedes_of_precedes hread (mem_labelsAmong.mp hmem).2 hfirst
    · obtain rfl := List.mem_singleton.mp ha
      exact not_precedes_self hread
  refine ⟨(mem_labelsAmong.mp hmem).1, (mem_labelsAmong.mp hmem).2, fun name hname a hread hversion => ?_,
    fun name hname a hread hsame hlabel => ?_⟩
  · exact hnot hname hread (.inl hversion)
  · exact hnot hname hread (.inr ⟨hsame.symm, (label_of_parse hread).symm ▸ hlabel⟩)

/-- The word for the greatest label asks for the last one listed. -/
theorem select_latest (h : names.Nodup) (hlatest : Text.lowerAscii requested = latestWord) :
    select (labelsAmong names) requested = (labelsAmong names).getLast? := by
  have halias : isLatestAlias requested = true := beq_iff_eq.mpr hlatest
  rw [select, if_pos halias, latest_eq_getLast? (pairwise_labelsAmong h)]

/-- A request that reads as a label asks for the first label listed with its version. -/
theorem select_of_parse {wanted : VersionLabel} (h : parse requested = .ok wanted) (labels : List VersionLabel) :
    select labels requested = labels.find? fun a => a.version == wanted.version := by
  rw [select, if_neg (by simp [isLatestAlias_eq_false h]), h]

section Loading

variable {t : FileTree} {directory name : String}

/-- The versions of a schema are the labels among the names of its directories, in whatever order they are enumerated. -/
theorem versions_of_perm (hdirectory : t.isDirectory (Path.join directory name) = true)
    (hnames : names.Perm (directoryNames t (Path.join directory name))) :
    versions t directory name = .ok (labelsAmong names) := by
  rw [versions, if_pos hdirectory, labelsAmong_of_perm hnames]

/-- A label that is chosen is loaded from the directory of its name. -/
theorem load_of_select {labels : List VersionLabel} (hversions : versions t directory name = .ok labels)
    (hselect : select labels requested = some a) : load t directory name requested =
      readVersion t (Path.join (Path.join directory name) a.label) name a.label := by
  rw [load, hversions]
  simp only [bind, Except.bind, hselect]

/-- If no label is chosen the version is not found. -/
theorem load_of_select_none {labels : List VersionLabel} (hversions : versions t directory name = .ok labels)
    (hselect : select labels requested = none) :
    load t directory name requested = .error (.versionNotFound name requested) := by
  rw [load, hversions]
  simp only [bind, Except.bind, hselect]
  rfl

/-- Which version is loaded as the greatest depends on the set of directories only. In whatever order their names are
enumerated, the names that read as labels are listed each once and in ascending order, which is a total order of labels:
by precedence of versions and then by text. The word for the greatest label, in any letter case, loads the last one
listed, than which no other is greater, and if there is none the version is not found. -/
theorem versions_listed_and_latest_loaded (hdirectory : t.isDirectory (Path.join directory name) = true)
    (hnames : names.Perm (directoryNames t (Path.join directory name))) :
    (IsStrictTotalOrder Read fun a b => a.1.Precedes b.1) ∧
      versions t directory name = .ok (labelsAmong names) ∧ Lists names (labelsAmong names) ∧
      ∀ requested, Text.lowerAscii requested = latestWord →
        (∀ n ∈ names, isLabel n = false) ∧
            load t directory name requested = .error (.versionNotFound name requested) ∨
          ∃ best, (labelsAmong names).getLast? = some best ∧ Greatest names best ∧
            load t directory name requested =
              readVersion t (Path.join (Path.join directory name) best.label) name best.label := by
  have hnodup : names.Nodup := hnames.nodup_iff.mpr (nodup_directoryNames t _)
  have hversions := versions_of_perm hdirectory hnames
  refine ⟨isStrictTotalOrder_precedes, hversions, lists_labelsAmong hnodup, fun requested hlatest => ?_⟩
  have hselect := select_latest hnodup hlatest
  cases hlast : (labelsAmong names).getLast? with
  | none =>
    refine .inl ⟨fun n hn => ?_, load_of_select_none hversions (hselect.trans hlast)⟩
    by_contra hlabel
    obtain ⟨a, hread⟩ := isLabel_iff.mp (by simpa using hlabel)
    have hlisted : a ∈ labelsAmong names := mem_labelsAmong.mpr (label_of_parse hread ▸ ⟨hn, hread⟩)
    rw [List.getLast?_eq_none_iff.mp hlast] at hlisted
    cases hlisted
  | some best =>
    exact .inr ⟨best, rfl, greatest_of_getLast? hnodup hlast, load_of_select hversions (hselect.trans hlast)⟩

/-- A schema with two directories for one version and one that is no version. -/
def vine : FileTree := ⟨.ofList [(["schemas"], .directory), (["schemas", "vine"], .directory),
  (["schemas", "vine", "1"], .directory),
  (["schemas", "vine", "1", "ontology.json"], .file (.text "\x7b\"doc\": \"Red.\"\x7d")),
  (["schemas", "vine", "1.0"], .directory),
  (["schemas", "vine", "1.0", "ontology.json"], .file (.text "\x7b\"doc\": \"White.\"\x7d")),
  (["schemas", "vine", "draft"], .directory)], []⟩

/-- The two names for one version, and the name that is none. -/
theorem parse_vine : parse "1" = .ok ⟨⟨1, 0, 0, [], []⟩, "1"⟩ ∧ parse "1.0" = .ok ⟨⟨1, 0, 0, [], []⟩, "1.0"⟩ ∧
    ∀ a, parse "draft" ≠ .ok a := by
  refine ⟨rfl, rfl, fun a h => ?_⟩
  have hdraft : isLabel "draft" = false := by decide +kernel
  exact absurd (isLabel_iff.mpr ⟨a, h⟩) (by simp [hdraft])

/-- Of the two directories for one version the one with the greater name is loaded as the latest. -/
theorem vine_latest_loaded : vine.isDirectory (Path.join "schemas" "vine") = true ∧
    ["draft", "1.0", "1"].Perm (directoryNames vine (Path.join "schemas" "vine")) ∧
    Text.lowerAscii "Latest" = latestWord ∧
    (load vine "schemas" "vine" "Latest").toOption.map (fun s => (s.version, s.doc)) = some ("1.0", "White.") := by
  have hdirectory : vine.isDirectory (Path.join "schemas" "vine") = true := by decide +kernel
  have hnames : ["draft", "1.0", "1"].Perm (directoryNames vine (Path.join "schemas" "vine")) := by decide +kernel
  have hword : Text.lowerAscii "Latest" = latestWord := by decide +kernel
  refine ⟨hdirectory, hnames, hword, ?_⟩
  obtain ⟨-, -, -, hlatest⟩ := versions_listed_and_latest_loaded hdirectory hnames
  rcases hlatest "Latest" hword with ⟨hnone, -⟩ | ⟨best, -, hbest, hload⟩
  · exact absurd (hnone "1" (by decide)) (by decide +kernel)
  · have hlabel : best.label = "1.0" := by
      have hmem := hbest.mem
      have hread := hbest.read
      simp only [List.mem_cons, List.not_mem_nil, or_false] at hmem
      obtain ⟨hone, hzero, hdraft⟩ := parse_vine
      rcases hmem with heq | heq | heq
      · exact absurd (heq ▸ hread) (hdraft best)
      · exact heq
      · -- The other directory has the same version and a greater name.
        obtain rfl := Except.ok.inj (hone.symm.trans (heq ▸ hread))
        exact absurd (by decide +kernel) (hbest.label "1.0" (by decide) _ hzero rfl)
    rw [hload, hlabel]
    decide +kernel

/-- The label that is chosen for a version: of those that stand for it, the one whose text comes first. -/
structure FirstOf (names : List String) (version : Version) (chosen : VersionLabel) : Prop where
  mem : chosen.label ∈ names
  read : parse chosen.label = .ok chosen
  version_eq : chosen.version = version
  first : ∀ name ∈ names, ∀ a, parse name = .ok a → a.version = version → ¬ name < chosen.label

/-- The first label listed with a version is the one whose text comes first. -/
theorem firstOf_of_find? {version : Version} {chosen : VersionLabel} (h : names.Nodup)
    (hfind : (labelsAmong names).find? (fun a => a.version == version) = some chosen) : FirstOf names version chosen := by
  obtain ⟨hversion, before, after, hsplit, hbefore⟩ := List.find?_eq_some_iff_append.mp hfind
  have hmem := mem_labelsAmong.mp (List.mem_of_find?_eq_some hfind)
  refine ⟨hmem.1, hmem.2, beq_iff_eq.mp hversion, fun name hname a hread hsame hless => ?_⟩
  obtain rfl := label_of_parse hread
  have hlisted : a ∈ labelsAmong names := mem_labelsAmong.mpr ⟨hname, hread⟩
  have hascending := (lists_labelsAmong h).ascending
  rw [hsplit] at hlisted hascending
  rcases List.mem_append.mp hlisted with ha | ha
  · exact absurd hsame (by simpa using hbefore a ha)
  · rcases List.mem_cons.mp ha with rfl | ha
    · exact absurd hless (String.lt_irrefl _)
    · have hafter : chosen.Precedes a :=
        (List.pairwise_cons.mp (List.pairwise_append.mp hascending).2.1).1 a ha
      exact not_precedes_of_precedes hmem.2 hread hafter (.inr ⟨hsame.trans (beq_iff_eq.mp hversion).symm, hless⟩)

/-- A directory that is asked for by its own name is loaded exactly if no other name of a directory stands for the same
version and comes before it. In any case one directory is loaded, and its label says from which: of those for the
requested version the one whose name comes first. -/
theorem exact_label_loaded_iff {wanted : VersionLabel} (hdirectory : t.isDirectory (Path.join directory name) = true)
    (hlisted : requested ∈ directoryNames t (Path.join directory name)) (hread : parse requested = .ok wanted) :
    ∃ chosen, FirstOf (directoryNames t (Path.join directory name)) wanted.version chosen ∧
      load t directory name requested =
        readVersion t (Path.join (Path.join directory name) chosen.label) name chosen.label ∧
      (chosen.label = requested ↔ ∀ n ∈ directoryNames t (Path.join directory name), ∀ a, parse n = .ok a →
        a.version = wanted.version → ¬ n < requested) := by
  obtain rfl := label_of_parse hread
  have hnodup := nodup_directoryNames t (Path.join directory name)
  have hversions := versions_of_perm hdirectory (.refl _)
  have hfound : ((labelsAmong (directoryNames t (Path.join directory name))).find? fun a =>
      a.version == wanted.version).isSome := by
    rw [List.find?_isSome]
    exact ⟨wanted, mem_labelsAmong.mpr ⟨hlisted, hread⟩, beq_self_eq_true _⟩
  obtain ⟨chosen, hchosen⟩ := Option.isSome_iff_exists.mp hfound
  have hfirst := firstOf_of_find? hnodup hchosen
  refine ⟨chosen, hfirst, load_of_select hversions ((select_of_parse hread _).trans hchosen), ?_⟩
  constructor
  · intro heq
    rw [← heq]
    exact hfirst.first
  · intro hnone
    have hle := String.not_lt.mp (hfirst.first wanted.label hlisted wanted hread rfl)
    have hge := String.not_lt.mp (hnone chosen.label hfirst.mem chosen hfirst.read hfirst.version_eq)
    exact String.le_antisymm hle hge

/-- The directory with the greater name of two for one version is not loaded, even if it is asked for by its own name. -/
theorem vine_first_loaded : vine.isDirectory (Path.join "schemas" "vine") = true ∧
    "1.0" ∈ directoryNames vine (Path.join "schemas" "vine") ∧ isLatestAlias "1.0" = false ∧
    parse "1.0" = .ok ⟨⟨1, 0, 0, [], []⟩, "1.0"⟩ ∧
    (load vine "schemas" "vine" "1.0").toOption.map (fun s => (s.version, s.doc)) = some ("1", "Red.") ∧
    (readVersion vine (Path.join (Path.join "schemas" "vine") "1.0") "vine" "1.0").toOption.map
      (fun s => (s.version, s.doc)) = some ("1.0", "White.") := by
  have hdirectory : vine.isDirectory (Path.join "schemas" "vine") = true := by decide +kernel
  have hnames : directoryNames vine (Path.join "schemas" "vine") = ["1", "1.0", "draft"] := by decide +kernel
  obtain ⟨hone, hzero, hdraft⟩ := parse_vine
  have hlisted : "1.0" ∈ directoryNames vine (Path.join "schemas" "vine") := by
    rw [hnames]
    decide
  refine ⟨hdirectory, hlisted, by decide +kernel, hzero, ?_, by decide +kernel⟩
  obtain ⟨chosen, hchosen, hload, hexact⟩ := exact_label_loaded_iff hdirectory hlisted hzero
  rw [hnames] at hchosen hexact
  have hlabel : chosen.label = "1" := by
    have hmem := hchosen.mem
    have hread := hchosen.read
    simp only [List.mem_cons, List.not_mem_nil, or_false] at hmem
    rcases hmem with heq | heq | heq
    · exact heq
    · exact absurd (by decide +kernel) (hexact.mp heq "1" (by decide) _ hone rfl)
    · exact absurd (heq ▸ hread) (hdraft chosen)
  rw [hload, hlabel]
  decide +kernel

end Loading

end SchemaDirectory

end OntologyCompiler
