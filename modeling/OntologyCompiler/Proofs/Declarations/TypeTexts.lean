import OntologyCompiler.Proofs.Declarations.Grammar

/-!
# What an accepted type text is read as

Validation recognises the text of a type by its grammar, while reading it takes the text apart: it is trimmed, cut at its
commas, and empty pieces are dropped. Of an accepted text nothing is lost in that: neither it nor a reference has a blank
character at an end, and no piece is empty. So a keyword is read as its scalar, a reference as itself, and an association
as the references that are written in it, in their order. Nothing else is accepted, and what is left unresolved of it is
always a reference.
-/

namespace OntologyCompiler

/-- A reference in an association, with the blank characters around it. -/
structure Slot where
  before : List Char
  name : String
  after : List Char
  blank_before : ∀ c ∈ before, Text.isBlank c = true
  blank_after : ∀ c ∈ after, Text.isBlank c = true
  reference : name.toList ∈ Grammar.references

/-- What is written in a slot. -/
def Slot.text (slot : Slot) : String := String.ofList (slot.before ++ slot.name.toList ++ slot.after)

/-- The text of an association with the given slots. -/
def ValueType.spell (slots : List Slot) : String := linkedStart ++ (Text.join "," (slots.map Slot.text) ++ ")")

/-- A name with exactly two parts, none of them empty. -/
def IsQualified (name : String) : Prop :=
  ∃ package typeName, splitQualified name = some (package, typeName) ∧ package ≠ "" ∧ typeName ≠ "" ∧
    name = package ++ "." ++ typeName

variable {s : String}

/-- A reference has two parts. -/
theorem Grammar.isQualified_of_mem_references (h : s.toList ∈ references) : IsQualified s := by
  obtain ⟨package, hpackage, typeName, hname, heq⟩ := mem_references.mp h
  rw [mem_names_iff] at hpackage hname
  have hdot {cs : List Char} (hcs : isNameChars cs = true) : '.' ∉ cs :=
    fun hmem => absurd (forall_of_isNameChars hcs _ hmem) (by decide)
  have hne {cs : List Char} (hcs : isNameChars cs = true) : cs ≠ [] := by
    rintro rfl
    cases hcs
  have hsplit : splitQualified s = some (String.ofList package, String.ofList typeName) := by
    simp [splitQualified, ← heq, Text.cut?_append (hdot hpackage), hne hpackage, hne hname, hdot hname]
  refine ⟨_, _, hsplit, ?_, ?_, eq_append_of_splitQualified hsplit⟩
  · simpa using hne hpackage
  · simpa using hne hname

/-- No reference is a keyword. -/
theorem ValueType.initialTarget_eq (h : IsQualified s) : initialTarget s = .unresolved s := by
  obtain ⟨package, typeName, hsplit, -⟩ := h
  rw [initialTarget, ScalarKind.ofKeyword?_of_splitQualified hsplit]

/-- A keyword leads to its scalar. -/
theorem ValueType.initialTarget_keyword (kind : ScalarKind) : initialTarget kind.keyword = .scalar kind := by
  rw [initialTarget, ScalarKind.ofKeyword?_keyword]

/-- The pieces of joined texts without separators are these texts. -/
theorem Text.pieces_join {separator : Char} {parts : List String} (hne : parts ≠ [])
    (h : ∀ part ∈ parts, separator ∉ part.toList) :
    pieces separator (join (String.singleton separator) parts).toList = parts.map String.toList := by
  induction parts with
  | nil => exact absurd rfl hne
  | cons part parts ih =>
    obtain ⟨hpart, hrest⟩ := List.forall_mem_cons.mp h
    cases parts with
    | nil => exact pieces_of_notMem hpart
    | cons next parts =>
      have hjoin : (join (String.singleton separator) (part :: next :: parts)).toList =
          part.toList ++ separator :: (join (String.singleton separator) (next :: parts)).toList := by
        simp [join, String.toList_append]
      rw [hjoin, pieces_append, pieces_of_notMem hpart, ih (List.cons_ne_nil _ _) hrest]
      rfl

namespace Slot

variable (slot : Slot)

/-- The characters of a slot. -/
theorem toList_text : slot.text.toList = slot.before ++ slot.name.toList ++ slot.after := String.toList_ofList

/-- A slot is a reference between blank characters. -/
theorem text_mem_padded : slot.text.toList ∈ Grammar.blanks * Grammar.references * Grammar.blanks :=
  Grammar.mem_padded.mpr ⟨slot.before, _, slot.after, slot.blank_before, Grammar.mem_references_iff.mp slot.reference,
    slot.blank_after, slot.toList_text.symm⟩

/-- A reference is not empty. -/
theorem name_ne_empty : slot.name ≠ "" := by
  intro hempty
  have hqualified := Grammar.mem_references_iff.mp slot.reference
  rw [hempty] at hqualified
  cases hqualified

/-- A slot is trimmed to its reference. -/
theorem trim_text : Text.trim slot.text.toList = slot.name.toList := by
  have hblank := Grammar.forall_of_isQualifiedChars (Grammar.mem_references_iff.mp slot.reference)
  rw [toList_text]
  exact Text.trim_append slot.blank_before slot.blank_after (Text.endsFilled_of_forall hblank)
    (by simpa using slot.name_ne_empty)

/-- Slots are the pieces of what is spelled with them. -/
theorem pieces_join {slots : List Slot} (hne : slots ≠ []) :
    Text.pieces ',' (Text.join "," (slots.map text)).toList = slots.map fun slot => slot.text.toList := by
  have hcomma : ∀ part ∈ slots.map text, ',' ∉ part.toList :=
    List.forall_mem_map.mpr fun slot _ => Grammar.comma_notMem_padded _ slot.text_mem_padded
  exact (Text.pieces_join (mt List.map_eq_nil_iff.mp hne) hcomma).trans List.map_map

end Slot

/-- A reference between blank characters is a slot. -/
theorem Grammar.exists_slot_of_mem_padded {cs : List Char} (h : cs ∈ blanks * references * blanks) :
    ∃ slot : Slot, slot.text.toList = cs := by
  obtain ⟨before, reference, after, hbefore, hreference, hafter, rfl⟩ := mem_padded.mp h
  have hmem : (String.ofList reference).toList ∈ references := by
    rw [String.toList_ofList]
    exact mem_references_iff.mpr hreference
  refine ⟨⟨before, String.ofList reference, after, hbefore, hafter, hmem⟩, ?_⟩
  rw [Slot.toList_text, String.toList_ofList]

open Computability in
/-- Slots with commas between them are what stands between the parentheses of an association. -/
theorem Grammar.mem_separated_iff_exists_slots {cs : List Char} :
    cs ∈ blanks * references * blanks * (word "," * (blanks * references * blanks))∗ ↔
      ∃ slots : List Slot, slots ≠ [] ∧ (Text.join "," (slots.map Slot.text)).toList = cs := by
  constructor
  · rintro ⟨first, hfirst, _, ⟨parts, rfl, hparts⟩, rfl⟩
    dsimp only
    induction parts generalizing first with
    | nil =>
      obtain ⟨slot, rfl⟩ := exists_slot_of_mem_padded hfirst
      exact ⟨[slot], List.cons_ne_nil _ _, (List.append_nil _).symm⟩
    | cons part parts ih =>
      obtain ⟨hpart, hrest⟩ := List.forall_mem_cons.mp hparts
      obtain ⟨_, rfl, next, hnext, rfl⟩ := Language.mem_mul.mp hpart
      obtain ⟨slot, rfl⟩ := exists_slot_of_mem_padded hfirst
      obtain ⟨slots, hne, heq⟩ := ih next hnext hrest
      refine ⟨slot :: slots, List.cons_ne_nil _ _, ?_⟩
      obtain ⟨second, slots, rfl⟩ := List.exists_cons_of_ne_nil hne
      have hjoin : (Text.join "," ((slot :: second :: slots).map Slot.text)).toList =
          slot.text.toList ++ ',' :: (Text.join "," ((second :: slots).map Slot.text)).toList := by
        simp [Text.join, String.toList_append]
      rw [hjoin, heq, List.flatten_cons, List.append_assoc]
      rfl
  · rintro ⟨slots, hne, rfl⟩
    refine (Text.mem_separated_iff comma_notMem_padded).mpr fun piece hpiece => ?_
    rw [Slot.pieces_join hne] at hpiece
    obtain ⟨slot, -, rfl⟩ := List.mem_map.mp hpiece
    exact slot.text_mem_padded

/-- Associations are what is spelled with slots. -/
theorem Grammar.mem_associations_iff_exists_slots :
    s.toList ∈ associations ↔ ∃ slots : List Slot, slots ≠ [] ∧ s = ValueType.spell slots := by
  rw [mem_associations]
  constructor
  · intro h
    obtain ⟨inner, hmem, heq⟩ := h
    obtain ⟨slots, hne, rfl⟩ := mem_separated_iff_exists_slots.mp hmem
    refine ⟨slots, hne, String.toList_injective ?_⟩
    rw [heq, ValueType.spell, String.toList_append, String.toList_append]
    rfl
  · intro h
    obtain ⟨slots, hne, rfl⟩ := h
    refine ⟨_, mem_separated_iff_exists_slots.mpr ⟨slots, hne, rfl⟩, ?_⟩
    rw [ValueType.spell, String.toList_append, String.toList_append]
    rfl

namespace ValueType

/-- A plain text is read as it stands. -/
theorem parse_of_plain (h : Grammar.Plain s) : parse s = ⟨s, false, [], initialTarget s⟩ := by
  have hblank : ∀ c ∈ s.toList, Text.isBlank c = false := by
    intro c hc
    rcases Bool.or_eq_true_iff.mp (h c hc) with hname | hdot
    · exact Grammar.isBlank_eq_false hname
    · exact beq_iff_eq.mp hdot ▸ rfl
  apply parse_of_endsFilled (Text.endsFilled_of_forall hblank)
  rw [linkedPart?, dropStart?_linkedStart_of_plain h]
  rfl

/-- An association is read as the references in its slots. -/
theorem parse_spell (slot : Slot) (slots : List Slot) :
    parse (spell (slot :: slots)) = ⟨slot.name, true, slots.map Slot.name, .unresolved slot.name⟩ := by
  have hlinked : linkedPart? (spell (slot :: slots)).toList =
      some (Text.join "," ((slot :: slots).map Slot.text)).toList := by
    rw [linkedPart?_eq_some_iff, spell, String.toList_append, String.toList_append]
    rfl
  have hnames : linkedNames (Text.join "," ((slot :: slots).map Slot.text)).toList =
      (slot :: slots).map fun slot => slot.name.toList := by
    rw [linkedNames, Slot.pieces_join (List.cons_ne_nil _ _), List.map_map]
    simp only [Function.comp_def, Slot.trim_text]
    refine List.filter_eq_self.mpr (List.forall_mem_map.mpr fun slot _ => ?_)
    simpa using slot.name_ne_empty
  have hqualified := initialTarget_eq (Grammar.isQualified_of_mem_references slot.reference)
  rw [parse_of_linkedPart? hlinked, hnames]
  simp only [List.map_cons, List.map_map, Function.comp_def, String.ofList_toList, List.headD_cons, List.tail_cons,
    hqualified]

/-- An accepted text is read as validation recognises it. -/
structure ReadAsRecognised (t : String) : Prop where
  bare : Grammar.isBareWord t = true → ∃ kind : ScalarKind, t = kind.keyword ∧ parse t = ⟨t, false, [], .scalar kind⟩
  reference : t.toList ∈ Grammar.references → IsQualified t ∧ parse t = ⟨t, false, [], .unresolved t⟩
  association : t.toList ∈ Grammar.associations → ∃ slots, slots ≠ [] ∧ t = spell slots
  slots : ∀ slots, t = spell slots → ∃ first rest, slots.map Slot.name = first :: rest ∧
    parse t = ⟨first, true, rest, .unresolved first⟩ ∧ ∀ name ∈ first :: rest, IsQualified name
  kinds : Grammar.isBareWord t = true ∨ t.toList ∈ Grammar.references ∨ t.toList ∈ Grammar.associations

/-- What has a character that is no letter is no bare word. -/
theorem not_isBareWord {c : Char} (hc : Grammar.isLowerLetter c = false)
    (hmem : c ∈ s.toList) : ¬ Grammar.isBareWord s = true := by
  intro h
  rw [List.all_eq_true.mp (Bool.and_eq_true_iff.mp h).2 c hmem] at hc
  cases hc

/-- A bare word that is accepted is a keyword. -/
theorem exists_keyword_of_isBareWord (h : Validation.typeProblem? s = none) (hbare : Grammar.isBareWord s = true) :
    ∃ kind : ScalarKind, s = kind.keyword := by
  rcases Validation.typeProblem?_eq_none_iff.mp h with hkeyword | hreference | hassociation
  · exact hkeyword
  · obtain ⟨package, _, typeName, _, heq⟩ := Grammar.mem_references.mp hreference
    have hdot : '.' ∈ s.toList := heq ▸ List.mem_append_right _ List.mem_cons_self
    exact absurd hbare (not_isBareWord rfl hdot)
  · obtain ⟨slots, -, rfl⟩ := Grammar.mem_associations_iff_exists_slots.mp hassociation
    have hparenthesis : '(' ∈ (spell slots).toList := by
      rw [spell, String.toList_append]
      exact List.mem_append_left _ (by decide)
    exact absurd hbare (not_isBareWord rfl hparenthesis)

/-- Accepted texts are read as they are recognised. -/
theorem readAsRecognised_of_accepted (h : Validation.typeProblem? s = none) : ReadAsRecognised s where
  bare hbare := by
    obtain ⟨kind, rfl⟩ := exists_keyword_of_isBareWord h hbare
    exact ⟨kind, rfl, by rw [parse_of_plain (Grammar.plain_keyword kind), initialTarget_keyword]⟩
  reference hreference := by
    have hqualified := Grammar.isQualified_of_mem_references hreference
    have hplain := Grammar.plain_of_isQualifiedName (Grammar.mem_references_iff.mp hreference)
    exact ⟨hqualified, by rw [parse_of_plain hplain, initialTarget_eq hqualified]⟩
  association := Grammar.mem_associations_iff_exists_slots.mp
  slots slots heq := by
    cases slots with
    | nil =>
      have hproblem : Validation.typeProblem? (spell []) ≠ none := by decide +kernel
      exact absurd (heq ▸ h) hproblem
    | cons slot slots =>
      refine ⟨slot.name, slots.map Slot.name, rfl, heq ▸ parse_spell slot slots, ?_⟩
      rw [← List.map_cons, List.forall_mem_map]
      exact fun slot _ => Grammar.isQualified_of_mem_references slot.reference
  kinds := by
    rcases Validation.typeProblem?_eq_none_iff.mp h with ⟨kind, rfl⟩ | hreference | hassociation
    · exact .inl kind.isBareWord_keyword
    · exact .inr (.inl hreference)
    · exact .inr (.inr hassociation)

/-- What points nowhere when it is bound has pointed nowhere before. -/
theorem target_of_bindType {t : ValueType} {index : OrderedMap String EntityId} {name : String}
    (h : (Ontology.bindType index t).target = .unresolved name) : t.target = .unresolved name := by
  unfold Ontology.bindType at h
  split at h
  · exact h
  · split at h
    · cases h
    · exact h

/-- What an accepted text leaves unresolved is a reference. -/
theorem isQualified_of_accepted {name : String} (h : Validation.typeProblem? s = none)
    (htarget : (parse s).target = .unresolved name) : IsQualified name := by
  have hread := readAsRecognised_of_accepted h
  rcases hread.kinds with hbare | hreference | hassociation
  · obtain ⟨kind, -, hparse⟩ := hread.bare hbare
    rw [hparse] at htarget
    cases htarget
  · obtain ⟨hqualified, hparse⟩ := hread.reference hreference
    rw [hparse] at htarget
    exact TypeTarget.unresolved.inj htarget ▸ hqualified
  · obtain ⟨slots, -, heq⟩ := hread.association hassociation
    obtain ⟨first, rest, -, hparse, hqualified⟩ := hread.slots slots heq
    rw [hparse] at htarget
    exact TypeTarget.unresolved.inj htarget ▸ hqualified first List.mem_cons_self

end ValueType

namespace Schema

/-- The types of properties are read from accepted texts and then bound. -/
theorem exists_accepted_of_build {s : Schema} {o : Ontology} (hs : s.problems = []) (h : s.build = .ok o) {p : Property}
    (hp : p ∈ o.properties) : ∃ raw, Validation.typeProblem? raw = none ∧ p.type = Ontology.bindType o.index (.parse raw) := by
  obtain ⟨ps, hps, rfl⟩ := build_eq_ok_iff.mp h
  obtain ⟨package, hpackage, c, hc, d, hd, -, -, htype, -⟩ := exists_declaration_of_mem_resolve hp
  obtain ⟨_, _, _, _, _, hread, hclean⟩ := exists_entry_of_declarations hs hps hpackage hc hd
  obtain ⟨-, raw, hraw, hnone⟩ := Validation.proper_of_checkProperty hclean hread
  refine ⟨raw, hnone, ?_⟩
  rw [index_resolve_assemble, ← hraw, htype]

/-- Every accepted text of a type is read as it is recognised: a bare word as a scalar, a reference as itself, and an
association as the references in its slots. In a valid schema the type of a property is read from an accepted text, and
if it points nowhere then a reference is what it names. -/
theorem accepted_types_read :
    (∀ t, Validation.typeProblem? t = none → ValueType.ReadAsRecognised t) ∧
      ∀ (s : Schema) (o : Ontology), s.problems = [] → s.build = .ok o → ∀ p ∈ o.properties,
        (∃ raw, Validation.typeProblem? raw = none ∧ p.type = Ontology.bindType o.index (.parse raw)) ∧
          ∀ name, p.type.target = .unresolved name → IsQualified name := by
  refine ⟨fun t => ValueType.readAsRecognised_of_accepted, fun s o hs h p hp => ?_⟩
  obtain ⟨raw, hraw, htype⟩ := exists_accepted_of_build hs h hp
  refine ⟨⟨raw, hraw, htype⟩, fun name htarget => ?_⟩
  rw [htype] at htarget
  exact ValueType.isQualified_of_accepted hraw (ValueType.target_of_bindType htarget)

/-- A class with an association to two classes that are not there. -/
def skiff : Schema :=
  ⟨"skiff", "1", "", [⟨"harbor", some "Boats.", some (.ofList [("skiff", .object [("base", .null),
    ("is_abstract", .boolean false), ("properties", .list [.list [.text "mooring",
      .text "linked_to( pier.post,\treef.buoy )", .text "0.1"]])])]), none⟩]⟩

/-- The text of the association is accepted, and its references are read without the blank characters around them. The
first one stays unresolved. -/
theorem skiff_mooring_read :
    ValueType.parse "linked_to( pier.post,\treef.buoy )" =
        ⟨"pier.post", true, ["reef.buoy"], .unresolved "pier.post"⟩ ∧
      ∃ o, skiff.build = .ok o ∧ ∃ p ∈ o.properties, p.type.target = .unresolved "pier.post" ∧
        IsQualified "pier.post" := by
  obtain ⟨hread, hresolved⟩ := accepted_types_read
  have haccepted : Validation.typeProblem? "linked_to( pier.post,\treef.buoy )" = none := by decide +kernel
  let post : Slot := ⟨[' '], "pier.post", [], List.forall_mem_singleton.mpr (by decide), nofun,
    Grammar.mem_references_iff.mpr (by decide +kernel)⟩
  let buoy : Slot := ⟨['\t'], "reef.buoy", [' '], List.forall_mem_singleton.mpr (by decide),
    List.forall_mem_singleton.mpr (by decide), Grammar.mem_references_iff.mpr (by decide +kernel)⟩
  have hspell : "linked_to( pier.post,\treef.buoy )" = ValueType.spell [post, buoy] := by decide +kernel
  obtain ⟨first, rest, hnames, hparse, -⟩ := (hread _ haccepted).slots _ hspell
  obtain ⟨rfl, rfl⟩ := List.cons.inj hnames
  have hbuild : skiff.build.map (fun o => o.properties.map fun p => p.type.target) =
      .ok [.unresolved "pier.post"] := by cbv
  obtain ⟨o, ho, htargets⟩ := Declaration.map_eq_ok.mp hbuild
  obtain ⟨p, hp, htarget⟩ := List.mem_map.mp (htargets ▸ List.mem_singleton_self (TypeTarget.unresolved "pier.post"))
  exact ⟨hparse, o, ho, p, hp, htarget, (hresolved skiff o (by decide +kernel) ho p hp).2 _ htarget⟩

end Schema

end OntologyCompiler
