import OntologyCompiler.Proofs.Inheritance.Cuts
import OntologyCompiler.Proofs.References.WellFormed

/-!
# Base chains

The chain of bases from a class ends at a class without a base. A function has at most one such chain from a class. In
a built ontology no class reaches itself along bases, so the walk that stops at classes it has met never stops early.
It has a step for every class and one more, so it is not cut short either: what it visits is the chain. From the
uniqueness of chains follows the recursion that all views of inheritance rest on: the lineage of a class is the class,
followed by the lineage of its base.
-/

namespace OntologyCompiler

/-- A chain of bases: each class is the base of the one before it, and the last one has none. -/
inductive BaseChain (base : ClassId → Option ClassId) : Option ClassId → List ClassId → Prop where
  | ends : BaseChain base none []
  | follows {id : ClassId} {l : List ClassId} : BaseChain base (base id) l → BaseChain base (some id) (id :: l)

section Walk

variable {base : ClassId → Option ClassId} {start : Option ClassId} {fuel : Nat} {seen l m : List ClassId}

/-- There is one chain of bases from a class. -/
theorem BaseChain.unique (hl : BaseChain base start l) (hm : BaseChain base start m) : l = m := by
  induction hl generalizing m with
  | ends =>
    cases hm
    rfl
  | follows _ ih =>
    cases hm with
    | follows hm => rw [ih hm]

/-- Without cycles the walk follows the chain of bases to its end, if every class that it may meet is found and the
steps left and the classes met are together no fewer than all classes. -/
theorem baseChain_walk {o : Ontology} (hacyclic : ∀ c, ¬ Relation.TransGen (fun x y => o.base? x = some y) c c)
    (hfound : ∀ {c d}, o.base? c = some d → ∃ x, o.class? d = some x)
    (hstart : ∀ d, start = some d → ∃ x, o.class? d = some x) (hseen : ∀ c ∈ seen, ∃ x, o.class? c = some x)
    (hnodup : seen.Nodup)
    (hreach : ∀ c ∈ seen, ∀ d, start = some d → Relation.TransGen (fun x y => o.base? x = some y) c d)
    (hfuel : o.classes.length ≤ fuel + seen.length) : BaseChain o.base? start (baseChain o.base? fuel seen start) := by
  induction fuel generalizing seen start with
  | zero =>
    cases start with
    | none => exact .ends
    | some id =>
      have hnew : id ∉ seen := fun hmem => hacyclic id (hreach id hmem id rfl)
      have hlength := Ontology.length_le_of_class? (List.nodup_cons.mpr ⟨hnew, hnodup⟩)
        (List.forall_mem_cons.mpr ⟨hstart id rfl, hseen⟩)
      rw [List.length_cons] at hlength
      omega
  | succ fuel ih =>
    cases start with
    | none => exact .ends
    | some id =>
      have hnew : id ∉ seen := fun hmem => hacyclic id (hreach id hmem id rfl)
      rw [baseChain, if_neg hnew]
      refine .follows (ih (fun d hd => hfound hd) (List.forall_mem_cons.mpr ⟨hstart id rfl, hseen⟩)
        (List.nodup_cons.mpr ⟨hnew, hnodup⟩) (List.forall_mem_cons.mpr ⟨fun d hd => .single hd, ?_⟩) ?_)
      · exact fun c hc d hd => (hreach c hc id rfl).tail hd
      · rw [List.length_cons]
        omega

end Walk

namespace Ontology

/-- What a view has for the base of a class: nothing without a base. -/
def inherited {α : Type} (o : Ontology) (view : ClassId → List α) (id : ClassId) : List α :=
  ((o.base? id).map view).getD []

end Ontology

namespace Schema

variable {s : Schema} {o : Ontology}

/-- The ancestors of a class are the chain of bases from its base. -/
theorem baseChain_ancestors_of_build (h : s.build = .ok o) (id : ClassId) :
    BaseChain o.base? (o.base? id) (o.ancestors id) := by
  have hfound {c d : ClassId} (hd : o.base? c = some d) : ∃ x, o.class? d = some x := class?_of_base? h hd
  cases hid : o.class? id with
  | none =>
    have hnone : o.base? id = none := by rw [Ontology.base?, hid, Option.bind_none]
    rw [Ontology.ancestors, hnone]
    exact .ends
  | some c =>
    refine baseChain_walk (not_transGen_base_of_build h) hfound (fun d hd => hfound hd) ?_ (List.nodup_singleton id) ?_
      (by omega)
    · exact fun d hd => ⟨c, List.mem_singleton.mp hd ▸ hid⟩
    · exact fun d hd e he => .single (List.mem_singleton.mp hd ▸ he)

/-- The lineage of a class is the class and the lineage of its base. -/
theorem lineage_eq_of_build (h : s.build = .ok o) (id : ClassId) :
    o.lineage id = id :: o.inherited o.lineage id := by
  have hchain := baseChain_ancestors_of_build h id
  rw [Ontology.lineage, Ontology.inherited]
  cases hbase : o.base? id with
  | none =>
    rw [hbase] at hchain
    exact congrArg _ (hchain.unique .ends)
  | some b =>
    rw [hbase] at hchain
    exact congrArg _ (hchain.unique (.follows (baseChain_ancestors_of_build h b)))

end Schema

end OntologyCompiler
