import OntologyCompiler.Ontology.Fingerprint
import OntologyCompiler.Proofs.Fingerprint.Lines
import OntologyCompiler.Proofs.Packages.Ties

/-!
# The fingerprint of reordered declarations

A fingerprint lists classes and packages by name, but the associations of a package by id, and ids follow the order
of declarations. All other lines are the same for every order. Any two associated packages can be declared before
all others, and one before the other, so the fingerprint is the same for every order exactly if the lines about
two associations of a package read the same in either order.
-/

namespace OntologyCompiler

namespace Ontology

/-- The line about an associated package. -/
def associationLine (o : Ontology) (id : PackageId) : String := "  assoc " ++ o.packageName id

/-- The lines about two associations of a package read the same in either order. -/
def AssociationsCommute (o : Ontology) : Prop :=
  ∀ p ∈ o.packages, ∀ q ∈ p.associatedPackages.toList, ∀ r ∈ p.associatedPackages.toList,
    Text.closeLines [o.associationLine q, o.associationLine r] =
      Text.closeLines [o.associationLine r, o.associationLine q]

/-- The lines in front of those about packages. -/
def fingerprintHead (o : Ontology) : List String :=
  (o.name ++ ":" ++ o.version) :: (sortOn Class.qualifiedName o.classes).flatMap o.fingerprintClass

/-- The text that is hashed goes on package by package. -/
theorem toList_fingerprintText (o : Ontology) : o.fingerprintText.toList =
    (Text.closeLines o.fingerprintHead).toList ++
      o.sortedPackages.flatMap fun p => (Text.closeLines (o.fingerprintPackage p)).toList := by
  rw [← Text.toList_closeLines_flatMap, ← String.toList_append, ← Text.closeLines_append]
  rfl

end Ontology

open Ontology

namespace Renaming.Carries

variable {ρ : Renaming} {o o' : Ontology} (h : ρ.Carries o o')

include h

/-- The line about a property stays the same. -/
theorem fingerprintProperty (p : Property) : o'.fingerprintProperty (ρ.onProperty p) = o.fingerprintProperty p := by
  have htype : (ρ.onProperty p).type.entity? = p.type.entity?.map ρ.entity := entity?_type ρ p.type
  unfold Ontology.fingerprintProperty
  rw [htype]
  cases p.type.entity? with
  | none => rfl
  | some e =>
    dsimp only [Option.map_some]
    rw [h.entityName]
    rfl

/-- The lines about a class stay the same. -/
theorem fingerprintClass (c : Class) : o'.fingerprintClass (ρ.onClass c) = o.fingerprintClass c := by
  have hbase : (ρ.onClass c).base.map o'.className = c.base.map o.className := by
    change (c.base.map ρ.ofClass).map o'.className = _
    rw [Option.map_map]
    exact Option.map_congr fun id _ => h.className id
  have hproperties : (o'.allProperties (ρ.onClass c).id).map o'.fingerprintProperty =
      (o.allProperties c.id).map o.fingerprintProperty := by
    change (o'.allProperties (ρ.ofClass c.id)).map _ = _
    rw [h.allProperties, List.map_map]
    exact List.map_congr_left fun p _ => h.fingerprintProperty p
  unfold Ontology.fingerprintClass
  rw [hbase, hproperties]
  rfl

/-- The lines in front of those about packages stay the same. -/
theorem fingerprintHead (hd : o.Distinct) : o'.fingerprintHead = o.fingerprintHead := by
  have hclasses : sortOn Class.qualifiedName o'.classes = (sortOn Class.qualifiedName o.classes).map ρ.onClass :=
    sortOn_eq_map_of_perm h.classes.perm (fun _ => rfl) hd.arena.class_names_nodup
  rw [Ontology.fingerprintHead, Ontology.fingerprintHead, h.name_eq, h.version_eq, hclasses, List.flatMap_map]
  congr 1
  exact List.flatMap_congr fun c _ => h.fingerprintClass c

/-- The lines about associations are the same in some order. -/
theorem perm_associationLines (p : Package) :
    ((ρ.onPackage p).associatedPackages.toList.map o'.associationLine).Perm
      (p.associatedPackages.toList.map o.associationLine) := by
  have hids : (ρ.onPackage p).associatedPackages.toList.Perm (p.associatedPackages.toList.map ρ.package) := by
    have hnodup : (p.associatedPackages.toList.map ρ.package).Nodup :=
      p.associatedPackages.nodup_toList.map fun a b => h.package_inj.mp
    refine (List.perm_ext_iff_of_nodup (OrderedSet.nodup_toList _) hnodup).mpr fun id => ?_
    rw [mem_associatedPackages_onPackage, List.mem_map]
  have hlines : (p.associatedPackages.toList.map ρ.package).map o'.associationLine =
      p.associatedPackages.toList.map o.associationLine := by
    rw [List.map_map]
    exact List.map_congr_left fun id _ => congrArg ("  assoc " ++ ·) (h.packageName id)
  exact hlines ▸ hids.map _

/-- The text is the same exactly if it is the same in the associations of each package. -/
theorem fingerprintText_eq_iff (hd : o.Distinct) : o'.fingerprintText = o.fingerprintText ↔
    ∀ p ∈ o.packages, Text.closeLines ((ρ.onPackage p).associatedPackages.toList.map o'.associationLine) =
      Text.closeLines (p.associatedPackages.toList.map o.associationLine) := by
  have hsection (p : Package) : Text.closeLines (o'.fingerprintPackage (ρ.onPackage p)) =
      Text.closeLines (o.fingerprintPackage p) ↔
        Text.closeLines ((ρ.onPackage p).associatedPackages.toList.map o'.associationLine) =
          Text.closeLines (p.associatedPackages.toList.map o.associationLine) :=
    Text.closeLines_append_right_inj.trans (@Text.closeLines_append_left_inj _ _ ["package " ++ p.name])
  have hlength (p : Package) : (Text.closeLines (o'.fingerprintPackage (ρ.onPackage p))).toList.length =
      (Text.closeLines (o.fingerprintPackage p)).toList.length :=
    Text.length_closeLines_eq_of_perm (((h.perm_associationLines p).append_right _).cons _)
  rw [← String.toList_inj, toList_fingerprintText, toList_fingerprintText, h.fingerprintHead hd,
    List.append_cancel_left_eq, h.sortedPackages hd.packages, List.flatMap_map]
  simp only [← hsection, ← String.toList_inj]
  constructor
  · intro heq p hp
    exact eq_of_flatMap_eq (fun p _ => hlength p) heq p (perm_sortOn.mem_iff.mpr hp)
  · intro hall
    exact List.flatMap_congr fun p hp => hall p (perm_sortOn.mem_iff.mp hp)

/-- If the lines about associations read the same in either order, the text is the same. -/
theorem fingerprintText_eq (hd : o.Distinct) (hcommute : o.AssociationsCommute) :
    o'.fingerprintText = o.fingerprintText := by
  rw [h.fingerprintText_eq_iff hd]
  intro p hp
  refine (Text.closeLines_eq_of_perm (h.perm_associationLines p).symm ?_).symm
  rw [List.forall_mem_map]
  intro q hq
  rw [List.forall_mem_map]
  exact hcommute p hp q hq

/-- The line about an association stays the same. -/
theorem associationLine (id : PackageId) : o'.associationLine (ρ.package id) = o.associationLine id := by
  rw [Ontology.associationLine, Ontology.associationLine, h.packageName]

end Renaming.Carries

/-- Two items come first in an ordered list if nothing comes before the one and nothing else before the other. -/
theorem exists_eq_cons_cons_of_pairwise {α : Type} {R : α → α → Prop} {l : List α} {a b : α} (hl : l.Pairwise R)
    (ha : a ∈ l) (hb : b ∈ l) (hne : b ≠ a) (hfirst : ∀ x ∈ l, ¬ R x a) (hsecond : ∀ x ∈ l, R x b → x = a) :
    ∃ rest, l = a :: b :: rest := by
  cases l with
  | nil => cases ha
  | cons x l =>
    obtain ⟨hx, hrest⟩ := List.pairwise_cons.mp hl
    obtain rfl : a = x := (List.mem_cons.mp ha).resolve_right fun ha => hfirst x List.mem_cons_self (hx a ha)
    have hbl := (List.mem_cons.mp hb).resolve_left hne
    cases l with
    | nil => cases hbl
    | cons y l =>
      obtain ⟨hy, -⟩ := List.pairwise_cons.mp hrest
      have hyl : y ∈ a :: y :: l := List.mem_cons_of_mem _ List.mem_cons_self
      have hyb : b = y := by
        refine (List.mem_cons.mp hbl).resolve_right fun hbl => hfirst y hyl ?_
        rw [hsecond y hyl (hy b hbl)] at hx ⊢
        exact hx a List.mem_cons_self
      exact ⟨l, by rw [hyb]⟩

/-- Packages of one name have one id. -/
theorem Ontology.Distinct.id_eq_of_packageName_eq {o : Ontology} (ho : o.Distinct) {p q : PackageId} {x y : Package}
    (hp : o.package? p = some x) (hq : o.package? q = some y) (h : o.packageName p = o.packageName q) : p = q := by
  rw [packageName, packageName, hp, hq, Option.map_some, Option.map_some, Option.getD_some, Option.getD_some] at h
  have hxy : x = y := List.inj_on_of_nodup_map ho.packages (List.mem_of_getElem? hp) (List.mem_of_getElem? hq) h
  rw [← ho.arena.package_id hp, ← ho.arena.package_id hq, hxy]

namespace Schema

variable {s : Schema} {o : Ontology}

/-- The rank that has two names declared first, one after the other. -/
def leadingRank (first second name : String) : ℕ∞ := if name = first then 2 else if name = second then 1 else 0

/-- No other name has the rank of the first one. -/
theorem eq_of_leadingRank_le {first second name : String}
    (hle : leadingRank first second first ≤ leadingRank first second name) : name = first := by
  by_contra hne
  rw [leadingRank, leadingRank, if_pos rfl, if_neg hne] at hle
  split at hle
  · exact absurd hle (by decide)
  · exact absurd hle (by decide)

/-- Only the first name has a greater rank than the second. -/
theorem eq_or_eq_of_leadingRank_le {first second name : String}
    (hle : leadingRank first second second ≤ leadingRank first second name) : name = first ∨ name = second := by
  by_contra hne
  rw [not_or] at hne
  rw [leadingRank, leadingRank, if_neg hne.1, if_neg hne.2] at hle
  split at hle
  · exact absurd hle (by decide)
  · exact absurd hle (by simp)

/-- Packages that go over to earlier ones have names of a greater rank where declarations are in the order of ranks. -/
theorem packageName_rank_le {ρ : Renaming} {rank : String → ℕ∞} {o' : Ontology} (hρ : ρ.Carries o o')
    (h' : (s.declaredBy rank).build = .ok o') {q r : PackageId} {x y : OntologyCompiler.Package}
    (hq : o.package? q = some x) (hr : o.package? r = some y) (hlt : compare (ρ.package q) (ρ.package r) = .lt) :
    rank (o.packageName r) ≤ rank (o.packageName q) := by
  have hq' : o'.package? (ρ.package q) = some (ρ.onPackage x) := by rw [hρ.package?, hq, Option.map_some]
  have hr' : o'.package? (ρ.package r) = some (ρ.onPackage y) := by rw [hρ.package?, hr, Option.map_some]
  have hle := rank_le_of_declaredBy h' hq' hr' (Nat.compare_eq_lt.mp hlt)
  change rank y.name ≤ rank x.name at hle
  simpa only [Ontology.packageName, hq, hr, Option.map_some, Option.getD_some] using hle

variable (h : s.build = .ok o) (hnames : (s.packages.map Package.name).Nodup)

include h hnames

/-- Two associations of a package come first, one before the other, for some order of declarations. -/
theorem exists_perm_associations {p : OntologyCompiler.Package} {q r : PackageId} (hp : p ∈ o.packages)
    (hq : q ∈ p.associatedPackages.toList) (hr : r ∈ p.associatedPackages.toList) (hne : r ≠ q) :
    ∃ packages', s.packages.Perm packages' ∧ ∀ o', ({ s with packages := packages' } : Schema).build = .ok o' →
      o'.fingerprintText = o.fingerprintText → ∃ rest, Text.closeLines (p.associatedPackages.toList.map
        o.associationLine) = Text.closeLines (o.associationLine q :: o.associationLine r :: rest) := by
  let rank := leadingRank (o.packageName q) (o.packageName r)
  have hperm : s.packages.Perm (s.declaredBy rank).packages := (List.mergeSort_perm _ _).symm
  refine ⟨_, hperm, fun o' h' htext => ?_⟩
  obtain ⟨ρ, hρ, hd, -⟩ := (reordered_of_perm hperm).exists_carries hnames h h'
  have hfound {t : PackageId} (ht : t ∈ p.associatedPackages.toList) : ∃ x, o.package? t = some x :=
    package?_of_mem_associatedPackages h (hd.arena.package?_of_mem hp) ht
  have hrank {t u : PackageId} (ht : t ∈ p.associatedPackages.toList) (hu : u ∈ p.associatedPackages.toList)
      (hlt : compare (ρ.package t) (ρ.package u) = .lt) : rank (o.packageName u) ≤ rank (o.packageName t) := by
    obtain ⟨x, hx⟩ := hfound ht
    obtain ⟨y, hy⟩ := hfound hu
    exact packageName_rank_le hρ h' hx hy hlt
  have hapart {t u : PackageId} (ht : t ∈ p.associatedPackages.toList) (hu : u ∈ p.associatedPackages.toList)
      (heq : o.packageName t = o.packageName u) : t = u := by
    obtain ⟨x, hx⟩ := hfound ht
    obtain ⟨y, hy⟩ := hfound hu
    exact hd.id_eq_of_packageName_eq hx hy heq
  obtain ⟨rest, hrest⟩ : ∃ rest, (ρ.onPackage p).associatedPackages.toList = ρ.package q :: ρ.package r :: rest := by
    have hmem (id : PackageId) : id ∈ (ρ.onPackage p).associatedPackages.toList ↔
        ∃ t ∈ p.associatedPackages.toList, ρ.package t = id := Renaming.Carries.mem_associatedPackages_onPackage
    refine exists_eq_cons_cons_of_pairwise (OrderedSet.ascending _) ((hmem _).mpr ⟨q, hq, rfl⟩)
      ((hmem _).mpr ⟨r, hr, rfl⟩) (fun heq => hne (hρ.package_inj.mp heq)) ?_ ?_
    · intro x hx hlt
      obtain ⟨t, ht, rfl⟩ := (hmem x).mp hx
      rw [hapart ht hq (eq_of_leadingRank_le (hrank ht hq hlt))] at hlt
      exact compare_self_ne_lt _ hlt
    · intro x hx hlt
      obtain ⟨t, ht, rfl⟩ := (hmem x).mp hx
      rcases eq_or_eq_of_leadingRank_le (hrank ht hr hlt) with hname | hname
      · rw [hapart ht hq hname]
      · rw [hapart ht hr hname] at hlt
        exact absurd hlt (compare_self_ne_lt _)
  have hlines := (hρ.fingerprintText_eq_iff hd).mp htext p hp
  rw [hrest, List.map_cons, List.map_cons, hρ.associationLine, hρ.associationLine] at hlines
  exact ⟨_, hlines.symm⟩

/-- The text that is hashed, and with it the fingerprint, is the same for every order of declarations exactly if the
lines about two associations of a package read the same in either order. -/
theorem fingerprint_unchanged_iff : (∀ packages', s.packages.Perm packages' →
    ∃ o', ({ s with packages := packages' } : Schema).build = .ok o' ∧ o'.fingerprintText = o.fingerprintText ∧
      o'.fingerprint = o.fingerprint) ↔ o.AssociationsCommute := by
  constructor
  · -- Either of two associations comes first for some order of declarations, and there is only one text.
    intro hsame p hp q hq r hr
    by_cases hne : r = q
    · rw [hne]
    · obtain ⟨packages₁, hperm₁, hfirst₁⟩ := exists_perm_associations h hnames hp hq hr hne
      obtain ⟨packages₂, hperm₂, hfirst₂⟩ := exists_perm_associations h hnames hp hr hq (Ne.symm hne)
      obtain ⟨o₁, ho₁, htext₁, -⟩ := hsame packages₁ hperm₁
      obtain ⟨o₂, ho₂, htext₂, -⟩ := hsame packages₂ hperm₂
      obtain ⟨rest₁, hrest₁⟩ := hfirst₁ o₁ ho₁ htext₁
      obtain ⟨rest₂, hrest₂⟩ := hfirst₂ o₂ ho₂ htext₂
      exact Text.closeLines_swap_of_eq (hrest₁.symm.trans hrest₂)
  · intro hcommute packages' hperm
    have hreordered := reordered_of_perm hperm
    obtain ⟨o', ho'⟩ := hreordered.exists_build ⟨o, h⟩
    obtain ⟨ρ, hρ, hd, -⟩ := hreordered.exists_carries hnames h ho'
    have htext := hρ.fingerprintText_eq hd hcommute
    exact ⟨o', ho', htext, congrArg Sha256.ofText htext⟩

/-- In a schema without problems the lines about two associations of a package read the same in either order only if
they are one association. -/
theorem associationsCommute_iff (hs : s.problems = []) : o.AssociationsCommute ↔
    ∀ p ∈ o.packages, ∀ q ∈ p.associatedPackages.toList, ∀ r ∈ p.associatedPackages.toList, q = r := by
  have hd := distinct_of_build h hnames
  constructor
  · intro hcommute p hp q hq r hr
    obtain ⟨x, hx⟩ := package?_of_mem_associatedPackages h (hd.arena.package?_of_mem hp) hq
    obtain ⟨y, hy⟩ := package?_of_mem_associatedPackages h (hd.arena.package?_of_mem hp) hr
    have hline {id : PackageId} {z : OntologyCompiler.Package} (hz : o.package? id = some z) :
        '\n' ∉ (o.associationLine id).toList := by
      intro hmem
      rw [Ontology.associationLine, Ontology.packageName, hz, String.toList_append, List.mem_append] at hmem
      rcases hmem with hmem | hmem
      · exact absurd hmem (by decide)
      · exact absurd (Grammar.isNameChar_of_mem (isName_of_build hs h z (List.mem_of_getElem? hz)) _ hmem) (by decide)
    have hlines : [o.associationLine q, o.associationLine r] = [o.associationLine r, o.associationLine q] :=
      Text.closeLines_injOn (by simp [hline hx, hline hy]) (by simp [hline hx, hline hy]) (hcommute p hp q hq r hr)
    have hname : o.packageName q = o.packageName r := by
      have heq := congrArg String.toList (List.cons.inj hlines).1
      rw [Ontology.associationLine, Ontology.associationLine, String.toList_append, String.toList_append] at heq
      exact String.toList_injective (List.append_cancel_left heq)
    exact hd.id_eq_of_packageName_eq hx hy hname
  · intro hone p hp q hq r hr
    rw [hone p hp q hq r hr]

omit h hnames

/-- The text that is hashed for three packages of which the first needs the other two. -/
def basinText (associations : List String) : String :=
  Text.closeLines (["basin:1", "class a.k base -", "  import b.k", "  import c.k", "  prop b b.k 1.1",
    "  prop c c.k 1.1", "class b.k base -", "class c.k base -", "package a"] ++ associations ++
      ["  external b.k", "  external c.k", "package b", "package c"])

/-- The two associations of a package are listed in the order in which they are declared. -/
theorem basin_fingerprint : ∃ o o', (basin [("a", ["b", "c"]), ("b", []), ("c", [])]).build = .ok o ∧
    (basin [("a", ["b", "c"]), ("c", []), ("b", [])]).build = .ok o' ∧ ¬ o.AssociationsCommute ∧
      o.fingerprintText = basinText ["  assoc b", "  assoc c"] ∧
        o'.fingerprintText = basinText ["  assoc c", "  assoc b"] := by
  have hbuild : ((basin [("a", ["b", "c"]), ("b", []), ("c", [])]).build.map Ontology.fingerprintText) =
      .ok (basinText ["  assoc b", "  assoc c"]) := by
    cbv
  have hbuild' : ((basin [("a", ["b", "c"]), ("c", []), ("b", [])]).build.map Ontology.fingerprintText) =
      .ok (basinText ["  assoc c", "  assoc b"]) := by
    cbv
  obtain ⟨o, ho, htext⟩ := Declaration.map_eq_ok.mp hbuild
  obtain ⟨o', ho', htext'⟩ := Declaration.map_eq_ok.mp hbuild'
  refine ⟨o, o', ho, ho', fun hcommute => ?_, htext, htext'⟩
  obtain ⟨o'', ho'', hsame, -⟩ :=
    (fingerprint_unchanged_iff ho (by decide)).mpr hcommute _ (.cons _ (.swap _ _ []))
  obtain rfl := Except.ok.inj (ho'.symm.trans ho'')
  rw [htext, htext'] at hsame
  exact absurd hsame (by decide +kernel)

end Schema

end OntologyCompiler
