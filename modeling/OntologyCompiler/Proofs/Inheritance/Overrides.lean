import OntologyCompiler.Proofs.Inheritance.Lineage
import OntologyCompiler.Proofs.Merging

/-!
# What a class inherits

The views of a class walk its whole lineage, and sort what they have collected. Here they are told from class to class
instead: under a key a class has what it declares itself, or else what its base has in the same view. A walk takes the
own items first and drops later items whose key has come before, which is the step of that recursion. The sort is
stable, and items of one key are equal in its order, so it does not change the items of a key, nor their order.
-/

namespace OntologyCompiler

instance : Std.TransOrd ConstraintKind :=
  inferInstanceAs (Std.TransCmp (compareLex (compareOn ConstraintKind.rank) (compareOn ConstraintKind.freeName)))

namespace Ontology

instance : Std.TransCmp constraintOrder :=
  inferInstanceAs (Std.TransCmp (compareLex (compareOn Constraint.property) (compareOn Constraint.kind)))

/-- Under every key the view of a class has the own items in their declared order if there are any, and else what it has
for the base of the class. -/
def Overrides {α κ : Type} [DecidableEq κ] (o : Ontology) (key : α → κ) (own view : ClassId → List α)
    (id : ClassId) : Prop :=
  ∀ k, (view id).filter (fun a => key a = k) =
    if k ∈ (own id).map key then (own id).filter fun a => key a = k
    else (o.inherited view id).filter fun a => key a = k

/-- The views of what a class declares and inherits. -/
structure Inherits (o : Ontology) (id : ClassId) : Prop where
  chain : BaseChain o.base? (some id) (o.lineage id)
  properties : o.Overrides Property.name o.ownProperties o.allProperties id
  properties_ascending : (o.allProperties id).Pairwise fun p q => compare p.name q.name = .lt
  constraints : o.Overrides Constraint.key o.ownConstraints o.allConstraints id
  constraints_ascending : (o.allConstraints id).Pairwise fun c d => (constraintOrder c d).isLE = true
  decodings : o.Overrides Decoding.key o.ownDecodings o.allDecodings id
  decodings_ascending : (o.allDecodings id).Pairwise fun d e => (compare d.property e.property).isLE = true
  /-- Own decodings of a property come first, then the inherited ones with other keys. -/
  decodings_own_first : ∀ property, (o.allDecodings id).filter (fun d => d.property = property) =
    (o.ownDecodings id).filter (fun d => d.property = property) ++
      (o.inherited o.allDecodings id).filter fun d => d.property = property ∧ d.key ∉ (o.ownDecodings id).map Decoding.key
  /-- The effective constraint is the first one of the nearest class that has any. -/
  constraintFor : ∀ property kind, o.constraintFor id property kind =
    (o.lineage id).findSome? fun a => (o.ownConstraints a).find? fun c => c.key = (kind, property)
  entity : o.isEntity id = true ↔ ∃ p ∈ o.allProperties id, p.name = "meta"

/-- Constraints with one key are equal in their order. -/
theorem constraintOrder_eq {c d : Constraint} (h : c.key = d.key) : constraintOrder c d = .eq := by
  obtain ⟨hkind, hproperty⟩ := Prod.mk.inj h
  rw [constraintOrder, hkind, hproperty, Std.compare_self, Std.compare_self]
  rfl

/-- A class is an entity if one of its effective properties is the marker. -/
theorem isEntity_iff {o : Ontology} {id : ClassId} :
    o.isEntity id = true ↔ ∃ p ∈ o.allProperties id, p.name = entityMarker := by
  simp only [allProperties, perm_sortOn.mem_iff, exists_mem_keepFirst_iff, isEntity, List.any_eq_true, List.mem_flatMap,
    beq_iff_eq]
  constructor
  · rintro ⟨c, hc, p, hp, hname⟩
    exact ⟨p, ⟨c, hc, hp⟩, hname⟩
  · rintro ⟨p, ⟨c, hc, hp⟩, hname⟩
    exact ⟨c, hc, p, hp, hname⟩

section Views

variable {α κ : Type} {o : Ontology} {own merged view : ClassId → List α} {id : ClassId}

/-- Views that agree on some items of every class agree on them for the base of a class. -/
theorem filter_inherited {p : α → Bool} (hview : ∀ c, (view c).filter p = (merged c).filter p) :
    (o.inherited view id).filter p = (o.inherited merged id).filter p := by
  unfold inherited
  cases o.base? id with
  | none => rfl
  | some b => exact hview b

/-- What is made of the lineage of the base is inherited. -/
theorem inherited_lineage {f : List ClassId → List α} (hnil : f [] = []) :
    o.inherited (fun c => f (o.lineage c)) id = f (o.inherited o.lineage id) := by
  unfold inherited
  cases o.base? id with
  | none => exact hnil.symm
  | some b => rfl

variable [DecidableEq κ] {key : α → κ}

/-- A view that sorts what a walk has merged overrides, since the walk does and the sort keeps the items of a key. -/
theorem overrides_of_merged (merged : ClassId → List α)
    (hmerged : merged id = own id ++ (o.inherited merged id).filter fun a => key a ∉ (own id).map key)
    (hview : ∀ k c, (view c).filter (fun a => key a = k) = (merged c).filter fun a => key a = k) :
    o.Overrides key own view id := by
  intro k
  rw [hview, hmerged, filter_append_fresh, filter_inherited (hview k)]

/-- Merging the levels of a lineage puts the own items before what is inherited under other keys. -/
theorem mergeLevels_lineage (hlineage : o.lineage id = id :: o.inherited o.lineage id) :
    mergeLevels key [] ((o.lineage id).map own) =
      own id ++ (o.inherited (fun c => mergeLevels key [] ((o.lineage c).map own)) id).filter
        fun a => key a ∉ (own id).map key := by
  rw [inherited_lineage (f := fun l => mergeLevels key [] (l.map own)) rfl, hlineage, List.map_cons, mergeLevels_cons]

/-- Keeping what comes first in a lineage puts the own items before what is inherited under other keys. -/
theorem keepFirst_lineage (hlineage : o.lineage id = id :: o.inherited o.lineage id)
    (hown : ((own id).map key).Nodup) :
    keepFirst key ((o.lineage id).flatMap own) =
      own id ++ (o.inherited (fun c => keepFirst key ((o.lineage c).flatMap own)) id).filter
        fun a => key a ∉ (own id).map key := by
  rw [inherited_lineage (f := fun l => keepFirst key (l.flatMap own)) rfl, hlineage, List.flatMap_cons,
    keepFirst_append, keepFirst_eq_self hown]

/-- Where views override, the first item of a key is found in the nearest class that declares one. -/
theorem find?_eq_findSome? (hview : ∀ id, o.Overrides key own view id) (k : κ) {start : Option ClassId}
    {l : List ClassId} (hchain : BaseChain o.base? start l) :
    ((start.map view).getD []).find? (fun a => key a = k) =
      l.findSome? fun id => (own id).find? fun a => key a = k := by
  induction hchain with
  | ends => rfl
  | @follows id l _ ih =>
    rw [List.findSome?_cons, ← ih, Option.map_some, Option.getD_some, ← List.head?_filter, hview id k]
    split
    next hown =>
      obtain ⟨a, ha, hk⟩ := List.mem_map.mp hown
      obtain ⟨b, hb⟩ := Option.isSome_iff_exists.mp
        (List.find?_isSome (p := fun a => decide (key a = k)).mpr ⟨a, ha, decide_eq_true hk⟩)
      rw [List.head?_filter, hb]
    next hown =>
      have hnone : (own id).find? (fun a => key a = k) = none := by
        apply List.find?_eq_none.mpr
        intro a ha heq
        exact hown (of_decide_eq_true heq ▸ List.mem_map_of_mem ha)
      rw [List.head?_filter, hnone]
      rfl

end Views

end Ontology

namespace Schema

variable {s : Schema} {o : Ontology}

/-- In a built ontology every class inherits what it does not override. -/
theorem inherits_of_build (h : s.build = .ok o) (id : ClassId) : o.Inherits id := by
  have hlineage := lineage_eq_of_build h
  have hchain (c : ClassId) : BaseChain o.base? (some c) (o.lineage c) := .follows (baseChain_ancestors_of_build h c)
  have hnames (c : ClassId) : ((o.ownProperties c).map Property.name).Nodup :=
    @nodup_of_ascending _ _ _ _ (fun name => name) _ ((wired_of_build h).properties_ascending c)
  have hconstraints (c : ClassId) : o.Overrides Constraint.key o.ownConstraints o.allConstraints c := by
    apply Ontology.overrides_of_merged (fun d => mergeLevels Constraint.key [] ((o.lineage d).map o.ownConstraints))
      (Ontology.mergeLevels_lineage (hlineage c))
    intro k d
    apply filter_mergeSort Ontology.constraintOrder
    exact fun a b ha hb => Ontology.constraintOrder_eq ((of_decide_eq_true ha).trans (of_decide_eq_true hb).symm)
  refine
    { chain := hchain id
      properties := ?_
      properties_ascending := pairwise_lt_sortOn (nodup_map_keepFirst _)
      constraints := hconstraints id
      constraints_ascending := pairwise_mergeSort_key Ontology.constraintOrder (fun c => c) _
      decodings := ?_
      decodings_ascending := pairwise_sortOn
      decodings_own_first := fun property => ?_
      constraintFor := fun property kind => ?_
      entity := Ontology.isEntity_iff }
  · apply Ontology.overrides_of_merged (fun c => keepFirst Property.name ((o.lineage c).flatMap o.ownProperties))
      (Ontology.keepFirst_lineage (hlineage id) (hnames id))
    exact fun name c => filter_sortOn fun p q hp hq => (of_decide_eq_true hp).trans (of_decide_eq_true hq).symm
  · apply Ontology.overrides_of_merged (fun c => mergeLevels Decoding.key [] ((o.lineage c).map o.ownDecodings))
      (Ontology.mergeLevels_lineage (hlineage id))
    intro k c
    apply filter_sortOn
    intro d e hd he
    exact congrArg Prod.fst ((of_decide_eq_true hd).trans (of_decide_eq_true he).symm)
  · have hstable (c : ClassId) : (o.allDecodings c).filter (fun d => d.property = property) =
        (mergeLevels Decoding.key [] ((o.lineage c).map o.ownDecodings)).filter fun d => d.property = property :=
      filter_sortOn fun d e hd he => (of_decide_eq_true hd).trans (of_decide_eq_true he).symm
    rw [hstable, Ontology.mergeLevels_lineage (hlineage id), List.filter_append, List.filter_comm,
      ← Ontology.filter_inherited hstable, List.filter_filter]
    exact congrArg _ (List.filter_congr fun d _ => Bool.eq_iff_iff.mpr (by simp [and_comm]))
  · have hfirst := Ontology.find?_eq_findSome? hconstraints (kind, property) (hchain id)
    rw [← hfirst]
    apply congrArg (List.find? · (o.allConstraints id))
    funext c
    simp [Constraint.key, Bool.and_comm, beq_eq_decide]

/-- Calves declare a part of what cows declare once more. -/
def herd : Schema :=
  ⟨"herd", "1", "", [⟨"pen", some "", some (.ofList [
    ("calf", .object [("base", .text "pen.cow"),
      ("properties", .list [.list [.text "name", .text "int", .text "1.1"]]),
      ("constraints", .list [.list [.text "name", .text "regex", .text "b"], .list [.text "name", .text "regex", .text "a"]]),
      ("decodings", .list [.list [.text "name", .text "label"]])]),
    ("cow", .object [("base", .null),
      ("properties", .list [.list [.text "name", .text "str", .text "1.1"], .list [.text "meta", .text "str", .text "0.1"]]),
      ("constraints", .list [.list [.text "name", .text "regex", .text "c"], .list [.text "age", .text "hidden", .null]]),
      ("decodings", .list [.list [.text "name", .text "code", .text "int"], .list [.text "name", .text "title"]])])]),
    none⟩]⟩

/-- A calf has its own constraints and decodings where it declares any under a key, and is an entity since cows are. -/
theorem herd_inherits :
    ∃ o, herd.build = .ok o ∧ o.Inherits ⟨0⟩ ∧
      (o.allProperties ⟨0⟩).map (fun p => (p.name, p.owner)) = [("meta", ⟨1⟩), ("name", ⟨0⟩)] ∧
        (o.allConstraints ⟨0⟩).map (fun c => (c.property, c.value)) =
          [("age", .null), ("name", .text "b"), ("name", .text "a")] ∧
            (o.allDecodings ⟨0⟩).map Decoding.rule = ["label", "code"] ∧ o.isEntity ⟨0⟩ = true := by
  have hbuild : (herd.build.map fun o => ((o.allProperties ⟨0⟩).map fun p => (p.name, p.owner),
      (o.allConstraints ⟨0⟩).map fun c => (c.property, c.value), (o.allDecodings ⟨0⟩).map Decoding.rule,
        o.isEntity ⟨0⟩)) = .ok ([("meta", ⟨1⟩), ("name", ⟨0⟩)],
          [("age", .null), ("name", .text "b"), ("name", .text "a")], ["label", "code"], true) := by
    cbv
  obtain ⟨o, ho, heq⟩ := Declaration.map_eq_ok.mp hbuild
  simp only [Prod.mk.injEq] at heq
  exact ⟨o, ho, inherits_of_build ho ⟨0⟩, heq⟩

end Schema

end OntologyCompiler
