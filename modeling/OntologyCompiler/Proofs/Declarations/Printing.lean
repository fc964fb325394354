import OntologyCompiler.Proofs.Declarations.TypeTexts

/-!
# Types printed and read again

Reading takes a text apart and keeps little of it: blank characters at its ends and around the names of an association
are dropped, and so are empty names. What is kept has a canonical form, in which nothing is left to drop. A type in
canonical form is printed as a text that is read as this type, so types that were read survive being printed, whatever
text they were read from. No other types do.
-/

namespace OntologyCompiler

namespace Text

variable {cs : List Char}

/-- A trimmed text has no blank ends. -/
theorem endsFilled_trim (cs : List Char) : EndsFilled (trim cs) := by
  have hfirst (ds : List Char) : ∀ c ∈ (ds.dropWhile isBlank).head?, isBlank c = false := by
    intro c hc
    have hhead := List.head?_dropWhile_not isBlank ds
    rwa [Option.mem_def.mp hc] at hhead
  let rest := cs.dropWhile isBlank
  refine ⟨fun c hc => ?_, fun c hc => ?_⟩
  · -- Trimming at the end leaves the first character, if it leaves any.
    have hsuffix : (rest.reverse.dropWhile isBlank).reverse <+: rest := by
      rw [← List.reverse_suffix, List.reverse_reverse]
      exact List.dropWhile_suffix _
    obtain ⟨dropped, hdropped⟩ := hsuffix
    have hne : (rest.reverse.dropWhile isBlank).reverse ≠ [] := by
      intro hnone
      rw [trim, hnone] at hc
      cases hc
    refine hfirst cs c ?_
    rw [show cs.dropWhile isBlank = _ from hdropped.symm, List.head?_append_of_ne_nil _ hne]
    exact hc
  · rw [trim, List.getLast?_reverse] at hc
    exact hfirst _ c hc

/-- The characters of a trimmed text are characters of the text. -/
theorem mem_of_mem_trim {c : Char} (h : c ∈ trim cs) : c ∈ cs := by
  obtain ⟨before, after, heq, -⟩ := exists_eq_append_trim cs
  rw [heq]
  exact List.mem_append_left _ (List.mem_append_right _ h)

/-- Texts joined with a comma and a blank are the pieces between commas, all but the first with a blank in front. -/
theorem pieces_join_comma {first : String} {rest : List String} (h : ∀ part ∈ first :: rest, ',' ∉ part.toList) :
    pieces ',' (join ", " (first :: rest)).toList = first.toList :: rest.map fun part => ' ' :: part.toList := by
  induction rest generalizing first with
  | nil => exact pieces_of_notMem (h first List.mem_cons_self)
  | cons next rest ih =>
    obtain ⟨hfirst, hrest⟩ := List.forall_mem_cons.mp h
    have hjoin : (join ", " (first :: next :: rest)).toList =
        first.toList ++ ',' :: ' ' :: (join ", " (next :: rest)).toList := by
      simp [join, String.toList_append]
    have hblank : pieces ',' (' ' :: (join ", " (next :: rest)).toList) =
        (' ' :: next.toList) :: rest.map fun part => ' ' :: part.toList := by
      rw [pieces, if_neg (by decide), ih hrest]
    rw [hjoin, pieces_append, pieces_of_notMem hfirst, hblank]
    rfl

end Text

namespace ValueType

/-- A name as an association lists it: not empty, without a comma, and without blank ends. -/
structure IsListed (name : String) : Prop where
  ne_empty : name ≠ ""
  comma : ',' ∉ name.toList
  filled : Text.EndsFilled name.toList

/-- A type in which reading has nothing left to drop, and which points where its name says. -/
structure Canonical (t : ValueType) : Prop where
  target_eq : t.target = initialTarget t.name
  /-- A type that is no association has one name, which does not read as an association. -/
  plain : t.isLinked = false → t.alternates = [] ∧ Text.EndsFilled t.name.toList ∧ linkedPart? t.name.toList = none
  /-- An association lists names, or none at all, which counts as one empty name. -/
  linked : t.isLinked = true → t.name = "" ∧ t.alternates = [] ∨ ∀ name ∈ t.name :: t.alternates, IsListed name

/-- The names that are read from an association are as it lists them. -/
theorem isListed_of_mem_linkedNames {inner name : List Char} (h : name ∈ linkedNames inner) :
    IsListed (String.ofList name) := by
  obtain ⟨hname, hfilled⟩ := List.mem_filter.mp h
  obtain ⟨piece, hpiece, rfl⟩ := List.mem_map.mp hname
  refine ⟨by simpa using hfilled, ?_, ?_⟩
  · rw [String.toList_ofList]
    exact fun hmem => (Text.mem_of_mem_pieces hpiece _ (Text.mem_of_mem_trim hmem)).2 rfl
  · rw [String.toList_ofList]
    exact Text.endsFilled_trim piece

/-- Whatever is read is in canonical form. -/
theorem canonical_parse (raw : String) : (parse raw).Canonical := by
  unfold parse
  dsimp only
  split
  next inner hinner =>
    refine ⟨rfl, nofun, fun _ => ?_⟩
    have hlisted : ∀ name ∈ (linkedNames inner).map String.ofList, IsListed name :=
      List.forall_mem_map.mpr fun _ => isListed_of_mem_linkedNames
    cases hnames : (linkedNames inner).map String.ofList with
    | nil => exact .inl ⟨rfl, rfl⟩
    | cons first rest => exact .inr (hnames ▸ hlisted)
  next hnone =>
    refine ⟨rfl, fun _ => ⟨rfl, ?_, ?_⟩, nofun⟩
    · rw [String.toList_ofList]
      exact Text.endsFilled_trim _
    · rwa [String.toList_ofList]

/-- Names that are printed as an association are what is read from it. -/
theorem linkedNames_join {first : String} {rest : List String} (h : ∀ name ∈ first :: rest, IsListed name) :
    linkedNames (Text.join ", " (first :: rest)).toList = (first :: rest).map String.toList := by
  obtain ⟨hfirst, hrest⟩ := List.forall_mem_cons.mp h
  have htrim : ∀ name ∈ rest, Text.trim (' ' :: name.toList) = name.toList := by
    intro name hname
    have hlisted := hrest name hname
    have hblank : Text.trim ([' '] ++ name.toList ++ []) = name.toList :=
      Text.trim_append (List.forall_mem_singleton.mpr (by decide)) nofun hlisted.filled (by simpa using hlisted.ne_empty)
    rwa [List.append_nil] at hblank
  have hnames : (Text.pieces ',' (Text.join ", " (first :: rest)).toList).map Text.trim =
      (first :: rest).map String.toList := by
    rw [Text.pieces_join_comma fun name hname => (h name hname).comma, List.map_cons, List.map_map, List.map_cons,
      hfirst.filled.trim_eq]
    exact congrArg _ (List.map_congr_left htrim)
  rw [linkedNames, hnames, List.filter_eq_self]
  refine List.forall_mem_map.mpr fun name hname => ?_
  simpa using (h name hname).ne_empty

/-- A type in canonical form is read from what it is printed as. -/
theorem Canonical.parse_render {t : ValueType} (h : t.Canonical) : parse t.render = t := by
  obtain ⟨name, isLinked, alternates, target⟩ := t
  obtain rfl : target = initialTarget name := h.target_eq
  cases isLinked with
  | false =>
    obtain ⟨rfl, hfilled, hnone⟩ := h.plain rfl
    simp only [render, Bool.false_eq_true, if_false]
    exact parse_of_endsFilled hfilled hnone
  | true =>
    have hpart : linkedPart? (linkedStart ++ (Text.join ", " (name :: alternates) ++ ")")).toList =
        some (Text.join ", " (name :: alternates)).toList := by
      rw [linkedPart?_eq_some_iff, String.toList_append, String.toList_append]
      rfl
    simp only [render, if_true, parse_of_linkedPart? hpart]
    rcases h.linked rfl with ⟨rfl, rfl⟩ | hlisted
    · rfl
    · rw [linkedNames_join hlisted, List.map_map]
      simp only [Function.comp_def, String.ofList_toList, List.map_id', List.headD_cons, List.tail_cons]

/-- Printing a type that was read, from whatever text, and reading it again gives the same type, in all its parts. The
types for which this holds are those in canonical form. -/
theorem printed_types_read_back :
    (∀ raw : String, parse (parse raw).render = parse raw) ∧ ∀ t : ValueType, parse t.render = t ↔ t.Canonical :=
  ⟨fun raw => (canonical_parse raw).parse_render, fun t => ⟨fun h => h ▸ canonical_parse t.render, fun h => h.parse_render⟩⟩

example : (parse "  linked_to( linked_to(a.b) ,, c.d ) ").render = "linked_to(linked_to(a.b), c.d)" := by decide +kernel

end ValueType

end OntologyCompiler
