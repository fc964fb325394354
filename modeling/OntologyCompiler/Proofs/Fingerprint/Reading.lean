import OntologyCompiler.Proofs.Fingerprint.Blocks
import OntologyCompiler.Proofs.Fingerprint.Legible
import OntologyCompiler.Proofs.Merging

/-!
# What can be read off a line

If all names are plain no line has a line feed, and a line can be taken apart again: a name ends at the first blank,
a cardinality has three characters, and what is between them starts with the name of the type, perhaps behind
`linked_to(`.
-/

namespace OntologyCompiler

/-- The name that a printed target starts with, behind `linked_to(` if this stands in front. -/
def printedName (text : String) : List Char :=
  ((Text.dropStart? ValueType.linkedStart.toList text.toList).getD text.toList).takeWhile Grammar.isReferenceChar

/-- A plain text is a name itself. -/
theorem printedName_of_plain {text : String} (h : Grammar.Plain text) : printedName text = text.toList := by
  have hnone : Text.dropStart? ValueType.linkedStart.toList text.toList = none := by
    rw [Option.eq_none_iff_forall_ne_some]
    intro rest hrest
    have hmem : '(' ∈ text.toList := by
      rw [Text.eq_append_of_dropStart? hrest]
      exact List.mem_append_left _ (by decide)
    exact h.notMem (by decide) hmem
  rw [printedName, hnone, Option.getD_none, List.takeWhile_eq_self_iff]
  exact h

/-- The names of an association end where the next one or the closing parenthesis follows. -/
theorem printedName_render {t : ValueType} (h : Grammar.Plain t.name) : printedName t.render = t.name.toList := by
  cases hlinked : t.isLinked with
  | false => rw [ValueType.render, hlinked, if_neg Bool.false_ne_true, printedName_of_plain h]
  | true =>
    obtain ⟨c, rest, hc, hrest⟩ : ∃ c rest, Grammar.isReferenceChar c = false ∧
        (Text.join ", " (t.name :: t.alternates) ++ ")").toList = t.name.toList ++ c :: rest := by
      cases t.alternates with
      | nil => exact ⟨')', [], by decide, by simp [Text.join]⟩
      | cons first others => exact ⟨',', _, by decide, by simp [Text.join]; rfl⟩
    rw [ValueType.render, hlinked, if_pos rfl, printedName, String.toList_append, Text.dropStart?_append,
      Option.getD_some, hrest, List.takeWhile_append_of_pos h, List.takeWhile_cons_of_neg (by simp [hc]),
      List.append_nil]

/-- A type is written without line feeds if its names have none. -/
theorem notMem_render {t : ValueType} (h : ∀ name ∈ t.name :: t.alternates, '\n' ∉ name.toList) :
    '\n' ∉ t.render.toList := by
  unfold ValueType.render
  split
  · exact Text.notMem_append (by decide) (Text.notMem_append (Text.notMem_join (by decide) h) (by decide))
  · exact h _ List.mem_cons_self

namespace Ontology

variable {o o' : Ontology} {p p' : Property} {c c' : Class}

/-- Effective properties are properties. -/
theorem mem_properties_of_mem_allProperties {id : ClassId} (h : p ∈ o.allProperties id) : p ∈ o.properties := by
  obtain ⟨owner, -, hown⟩ := List.mem_flatMap.mp (mem_of_mem_keepFirst (perm_sortOn.mem_iff.mp h))
  obtain ⟨x, hx⟩ := class?_of_mem_ownProperties hown
  rw [ownProperties_eq hx] at hown
  obtain ⟨i, -, hi⟩ := List.mem_filterMap.mp hown
  exact List.mem_of_getElem? hi

/-- A name in the index is that of the type it leads to. -/
theorem Wired.entityName_of_get?_index (ho : o.Wired) {name : String} {e : EntityId}
    (h : o.index.get? name = some e) : o.entityName e = name := by
  cases e with
  | ofClass id =>
    obtain ⟨c, hc, hname⟩ := ho.index_class.mp h
    exact (Arena.className_eq hc).trans hname
  | ofEnum id =>
    obtain ⟨e, he, hname⟩ := ho.index_enum.mp h
    rw [entityName, he, Option.map_some, Option.getD_some, hname]

namespace Legible

/-- The printed target of a property starts with the name of its type. -/
theorem printedName_printedTarget (ho : o.Legible) (hp : p ∈ o.properties) :
    printedName (o.printedTarget p.type) = p.type.name.toList := by
  have hplain : Grammar.Plain p.type.name := ho.type_names p hp _ List.mem_cons_self
  unfold printedTarget ValueType.entity?
  cases htarget : p.type.target with
  | scalar kind => exact printedName_render hplain
  | unresolved name => exact printedName_render hplain
  | resolved e =>
    have hname := ho.entityName_of_get?_index (((ho.bound p hp).resolved e).mp htarget)
    dsimp only
    rw [hname, printedName_of_plain hplain]

/-- A printed target has no line feed. -/
theorem notMem_printedTarget (ho : o.Legible) (hp : p ∈ o.properties) : '\n' ∉ (o.printedTarget p.type).toList := by
  unfold printedTarget
  split
  next e _ => exact (ho.entities e).notMem (by decide)
  next => exact notMem_render fun name hname => (ho.type_names p hp name hname).notMem (by decide)

/-- The qualified names of classes are plain. -/
theorem plain_qualifiedName (ho : o.Legible) (hc : c ∈ o.classes) : Grammar.Plain c.qualifiedName := by
  have hname : o.entityName (.ofClass c.id) = c.qualifiedName := Arena.className_eq (ho.class?_of_mem hc)
  exact hname ▸ ho.entities _

/-- The name of a base is told from no base. -/
theorem base_eq_of_printed_eq (ho : o.Legible) (ho' : o'.Legible)
    (h : (c'.base.map o'.className).getD "-" = (c.base.map o.className).getD "-") :
    c'.base.map o'.className = c.base.map o.className := by
  have hname {o : Ontology} (ho : o.Legible) (id : ClassId) : o.className id ≠ "-" := by
    intro heq
    have hplain : Grammar.Plain (o.className id) := ho.entities (.ofClass id)
    exact (heq ▸ hplain).notMem (show Grammar.isReferenceChar '-' = false by decide) (by decide)
  cases hb' : c'.base with
  | none =>
    cases hb : c.base with
    | none => rfl
    | some b =>
      rw [hb', hb] at h
      exact absurd h.symm (hname ho b)
  | some b' =>
    cases hb : c.base with
    | none =>
      rw [hb', hb] at h
      exact absurd h (hname ho' b')
    | some b =>
      rw [hb', hb] at h
      exact congrArg some h

/-- The cardinality of a property is written in one of the encodings. -/
theorem render_mem_encodings (ho : o.Legible) (hp : p ∈ o.properties) :
    p.cardinality.render ∈ Cardinality.encodings :=
  Cardinality.parse?_isSome_iff.mp (Option.isSome_of_mem (ho.cardinalities p hp))

/-- No line of a block has a line feed. -/
theorem notMem_line (ho : o.Legible) : ∀ b ∈ o.blocks, ∀ line ∈ b.lines, '\n' ∉ line.render.toList := by
  have hplain {s : String} (hs : Grammar.Plain s) : '\n' ∉ s.toList := hs.notMem (by decide)
  have hline (kind : LineKind) {s : String} (hs : '\n' ∉ s.toList) : '\n' ∉ (Line.render ⟨kind, s⟩).toList := by
    have hword : '\n' ∉ kind.word.toList := by cases kind <;> decide
    exact Text.notMem_append hword hs
  intro b hb line hmem
  rcases List.mem_append.mp hb with hb | hb
  · obtain ⟨c, hc, rfl⟩ := List.mem_map.mp hb
    have hc : c ∈ o.classes := perm_sortOn.mem_iff.mp hc
    simp only [Block.lines, classBlock, List.mem_cons, List.mem_append, List.mem_map] at hmem
    rcases hmem with rfl | (⟨e, he, rfl⟩ | ⟨e, he, rfl⟩) | ⟨p, hp, rfl⟩
    · refine hline _ (Text.notMem_append (Text.notMem_append (hplain (ho.plain_qualifiedName hc)) (by decide)) ?_)
      cases c.base with
      | none => exact (by decide : '\n' ∉ "-".toList)
      | some b => exact hplain (ho.entities (.ofClass b))
    · exact hline _ (hplain (ho.imports c hc e (.inl he)).plain)
    · exact hline _ (hplain (ho.imports c hc e (.inr he)).plain)
    · have hp := mem_properties_of_mem_allProperties hp
      have hencodings : ∀ encoding ∈ Cardinality.encodings, '\n' ∉ encoding.toList := by decide
      refine hline _ (Text.notMem_append (Text.notMem_append (Text.notMem_append (Text.notMem_append ?_ (by decide)) ?_)
        (by decide)) ?_)
      · exact hplain (ho.property_names p hp)
      · exact ho.notMem_printedTarget hp
      · exact hencodings _ (ho.render_mem_encodings hp)
  · obtain ⟨q, hq, rfl⟩ := List.mem_map.mp hb
    have hq : q ∈ o.packages := perm_sortOn.mem_iff.mp hq
    simp only [Block.lines, packageBlock, List.mem_cons, List.mem_append, List.mem_map] at hmem
    rcases hmem with rfl | ⟨id, -, rfl⟩ | ⟨e, he, rfl⟩
    · have hname : o.packageName q.id = q.name := by simp [packageName, ho.package?_of_mem hq]
      exact hline _ (hplain (hname ▸ ho.packages q.id))
    · exact hline _ (hplain (ho.packages id))
    · exact hline _ (hplain (ho.external q hq e he).plain)

/-- Name, type name and cardinality of a property can be read off its line. -/
theorem eq_of_property_text_eq (ho : o.Legible) (ho' : o'.Legible) (hp : p ∈ o.properties) (hp' : p' ∈ o'.properties)
    (h : p'.name ++ " " ++ o'.printedTarget p'.type ++ " " ++ p'.cardinality.render =
      p.name ++ " " ++ o.printedTarget p.type ++ " " ++ p.cardinality.render) :
    p'.name = p.name ∧ p'.type.name = p.type.name ∧ p'.cardinality = p.cardinality := by
  have hchars (name target encoding : String) : (name ++ " " ++ target ++ " " ++ encoding).toList =
      name.toList ++ ' ' :: (target.toList ++ ' ' :: encoding.toList) := by
    simp [String.toList_append]
  have hlengths : ∀ encoding ∈ Cardinality.encodings, encoding.toList.length = 3 := by decide
  have hlength : (' ' :: p'.cardinality.render.toList).length = (' ' :: p.cardinality.render.toList).length := by
    rw [List.length_cons, List.length_cons, hlengths _ (ho'.render_mem_encodings hp'),
      hlengths _ (ho.render_mem_encodings hp)]
  have hsplit := congrArg String.toList h
  rw [hchars, hchars] at hsplit
  obtain ⟨hname, hrest⟩ := Text.append_separator_inj ((ho'.property_names p' hp').notMem (by decide))
    ((ho.property_names p hp).notMem (by decide)) hsplit
  obtain ⟨htarget, hencoding⟩ := List.append_inj' hrest hlength
  refine ⟨String.toList_injective hname, String.toList_injective ?_, ?_⟩
  · rw [← ho'.printedName_printedTarget hp', String.toList_injective htarget, ho.printedName_printedTarget hp]
  · have hrender := String.toList_injective (List.cons.inj hencoding).2
    have hparsed := ho'.cardinalities p' hp'
    rw [hrender, ho.cardinalities p hp] at hparsed
    exact (Option.some.inj hparsed).symm

/-- Name and base of a class can be read off its block. -/
theorem head_eq_of_classBlock_eq (ho : o.Legible) (ho' : o'.Legible) (hc : c ∈ o.classes) (hc' : c' ∈ o'.classes)
    (h : o'.classBlock c' = o.classBlock c) :
    c'.qualifiedName = c.qualifiedName ∧ c'.base.map o'.className = c.base.map o.className := by
  have hhead : c'.qualifiedName ++ " base " ++ (c'.base.map o'.className).getD "-" =
      c.qualifiedName ++ " base " ++ (c.base.map o.className).getD "-" := congrArg (fun b => b.head.text) h
  have hchars (name base : String) : (name ++ " base " ++ base).toList =
      name.toList ++ ' ' :: ("base ".toList ++ base.toList) := by
    simp [String.toList_append]
  have hsplit := congrArg String.toList hhead
  rw [hchars, hchars] at hsplit
  obtain ⟨hname, hrest⟩ := Text.append_separator_inj ((ho'.plain_qualifiedName hc').notMem (by decide))
    ((ho.plain_qualifiedName hc).notMem (by decide)) hsplit
  have hbase := String.toList_injective (List.append_cancel_left hrest)
  exact ⟨String.toList_injective hname, ho.base_eq_of_printed_eq ho' hbase⟩

end Legible

end Ontology

end OntologyCompiler
