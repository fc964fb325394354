import OntologyCompiler.Proofs.Declarations.Gate
import OntologyCompiler.Proofs.Loading.Names

/-!
# Types of declared properties

The type of a declared property is read from the second field of an entry. Validation looks at this field, so in a
schema without problems a type that has a package names it by a proper name.
-/

namespace OntologyCompiler

/-- Neither end of a text is blank. -/
def Text.EndsFilled (cs : List Char) : Prop :=
  (∀ c ∈ cs.head?, isBlank c = false) ∧ ∀ c ∈ cs.getLast?, isBlank c = false

/-- A text whose ends are not blank is trimmed. -/
theorem Text.EndsFilled.trim_eq {cs : List Char} (h : EndsFilled cs) : trim cs = cs := by
  have hdrop (ds : List Char) (hds : ∀ c ∈ ds.head?, isBlank c = false) : ds.dropWhile isBlank = ds := by
    cases ds with
    | nil => rfl
    | cons c ds => simp [hds c (by simp)]
  rw [trim, hdrop cs h.1, hdrop cs.reverse (by simpa using h.2), List.reverse_reverse]

/-- A text without blank characters has no blank ends. -/
theorem Text.endsFilled_of_forall {cs : List Char} (h : ∀ c ∈ cs, isBlank c = false) : EndsFilled cs :=
  ⟨fun c hc => h c (List.mem_of_mem_head? hc), fun c hc => h c (List.mem_of_mem_getLast? hc)⟩

/-- The text of an association has no blank ends. -/
theorem ValueType.endsFilled_of_linkedPart? {cs inner : List Char} (h : linkedPart? cs = some inner) :
    Text.EndsFilled cs := by
  obtain ⟨rest, hstart, hend⟩ := Option.bind_eq_some_iff.mp h
  obtain rfl := Text.eq_append_of_dropStart? hstart
  unfold Text.dropEnd? at hend
  split at hend
  next => cases hend
  next c ds hreverse =>
    split at hend
    next hc =>
      have hrest : rest = ds.reverse ++ [')'] := by
        rw [← List.reverse_reverse rest, hreverse, hc, List.reverse_cons]
      refine ⟨?_, ?_⟩
      · intro c hc
        obtain rfl := Option.some.inj (hc : some 'l' = some c)
        decide
      · rw [hrest, ← List.append_assoc, List.getLast?_concat]
        intro c hc
        obtain rfl := Option.some.inj hc
        decide
    next => cases hend

/-- The text of an association is read as the names in it. -/
theorem ValueType.parse_of_linkedPart? {raw : String} {inner : List Char} (h : linkedPart? raw.toList = some inner) :
    parse raw =
      let names := (linkedNames inner).map String.ofList
      ⟨names.headD "", true, names.tail, initialTarget (names.headD "")⟩ := by
  simp only [parse, (endsFilled_of_linkedPart? h).trim_eq, h]

/-- Any other text without blank ends is read as it stands. -/
theorem ValueType.parse_of_endsFilled {raw : String} (hfilled : Text.EndsFilled raw.toList)
    (h : linkedPart? raw.toList = none) : parse raw = ⟨raw, false, [], initialTarget raw⟩ := by
  simp only [parse, hfilled.trim_eq, h, String.ofList_toList]

/-- No name is dropped if no piece between commas is blank. -/
theorem ValueType.linkedNames_ne_nil {inner : List Char} (h : ∀ piece ∈ Text.pieces ',' inner, Text.trim piece ≠ []) :
    linkedNames inner ≠ [] := by
  obtain ⟨piece, hpiece⟩ := List.exists_mem_of_ne_nil _ (Text.pieces_ne_nil ',' inner)
  have hlisted : Text.trim piece ∈ linkedNames inner :=
    List.mem_filter.mpr ⟨List.mem_map_of_mem hpiece, by simpa using h piece hpiece⟩
  exact List.ne_nil_of_mem hlisted

/-- No character of a name is blank. -/
theorem Grammar.isBlank_eq_false {c : Char} (h : isNameChar c = true) : Text.isBlank c = false := by
  simp only [isNameChar, isLowerLetter, Char.isDigit, Bool.or_eq_true, Bool.and_eq_true, decide_eq_true_eq,
    beq_iff_eq, Char.le_def, UInt32.le_iff_toNat_le, ge_iff_le] at h
  have hrange : 48 ≤ c.toNat ∧ c.toNat ≤ 122 := by
    rcases h with (h | h) | h
    · change 97 ≤ c.toNat ∧ c.toNat ≤ 122 at h
      omega
    · change 48 ≤ c.toNat ∧ c.toNat ≤ 57 at h
      omega
    · subst h
      decide
  simp only [Text.isBlank, Bool.or_eq_false_iff, Bool.and_eq_false_iff, decide_eq_false_iff_not, beq_eq_false_iff_ne]
  omega

/-- A lower case letter may stand in a name. -/
theorem Grammar.isNameChar_of_isLowerLetter {c : Char} (h : isLowerLetter c = true) : isNameChar c = true := by
  simp [isNameChar, h]

/-- The characters of a name may stand in a name. -/
theorem Grammar.forall_of_isNameChars {cs : List Char} (h : isNameChars cs = true) :
    ∀ c ∈ cs, isNameChar c = true := by
  cases cs with
  | nil => simp
  | cons c cs =>
    rw [isNameChars, Bool.and_eq_true] at h
    exact List.forall_mem_cons.mpr ⟨isNameChar_of_isLowerLetter h.1, List.all_eq_true.mp h.2⟩

/-- A reference has no blank characters. -/
theorem Grammar.forall_of_isQualifiedChars {cs : List Char} (h : isQualifiedChars cs = true) :
    ∀ c ∈ cs, Text.isBlank c = false := by
  unfold isQualifiedChars at h
  split at h
  next => cases h
  next package typeName hcut =>
    obtain ⟨hpackage, hname⟩ := Bool.and_eq_true_iff.mp h
    intro c hc
    rw [Text.eq_append_of_cut? hcut, List.mem_append, List.mem_cons] at hc
    rcases hc with hc | rfl | hc
    · exact isBlank_eq_false (forall_of_isNameChars hpackage c hc)
    · decide
    · exact isBlank_eq_false (forall_of_isNameChars hname c hc)

/-- If a type has a package, this is a proper name. -/
def ValueType.PackageNamed (t : ValueType) : Prop :=
  ∀ parts, t.qualifiedParts = some parts → Grammar.isName parts.1 = true

namespace Validation

/-- A split name without problems starts with a proper name. -/
theorem isName_of_isQualifiedChars {cs : List Char} {parts : String × String}
    (h : Grammar.isQualifiedChars cs = true) (hsplit : splitQualified (String.ofList cs) = some parts) :
    Grammar.isName parts.1 = true := by
  unfold Grammar.isQualifiedChars at h
  unfold splitQualified at hsplit
  rw [String.toList_ofList] at hsplit
  cases hcut : Text.cut? '.' cs with
  | none =>
    rw [hcut] at h
    cases h
  | some cut =>
    rw [hcut] at h hsplit
    dsimp only at h hsplit
    split at hsplit
    next => cases hsplit
    next =>
      obtain rfl := Option.some.inj hsplit
      rw [Grammar.isName, String.toList_ofList]
      exact (Bool.and_eq_true_iff.mp h).1

/-- A text of a qualified name splits only behind a proper name. -/
theorem packageNamed_of_isQualifiedChars {t : ValueType} {cs : List Char}
    (h : Grammar.isQualifiedChars cs = true) (hname : t.name = String.ofList cs) : t.PackageNamed := by
  intro parts hparts
  rw [ValueType.qualifiedParts, hname] at hparts
  exact isName_of_isQualifiedChars h hparts

/-- The names in an association by the grammar are references. -/
theorem names_of_isLinkedType {raw : String} (h : Grammar.isLinkedType raw = true) :
    ∀ name ∈ (ValueType.parse raw).name :: (ValueType.parse raw).alternates, Grammar.isQualifiedName name = true := by
  unfold Grammar.isLinkedType at h
  split at h
  next => cases h
  next inner hinner =>
    have hpieces := List.all_eq_true.mp h
    have hnames : ∀ name ∈ (ValueType.linkedNames inner).map String.ofList, Grammar.isQualifiedName name = true := by
      refine List.forall_mem_map.mpr fun cs hcs => ?_
      obtain ⟨piece, hpiece, rfl⟩ := List.mem_map.mp (List.mem_filter.mp hcs).1
      rw [Grammar.isQualifiedName, String.toList_ofList]
      exact hpieces piece hpiece
    have hsome : ValueType.linkedNames inner ≠ [] := by
      refine ValueType.linkedNames_ne_nil fun piece hpiece hempty => ?_
      have hqualified := hpieces piece hpiece
      rw [hempty] at hqualified
      cases hqualified
    rw [ValueType.parse_of_linkedPart? hinner]
    obtain ⟨first, rest, hlist⟩ := List.ne_nil_iff_exists_cons.mp hsome
    simpa only [hlist, List.map_cons, List.headD_cons, List.tail_cons] using hnames

/-- The names in a type without problems are references or keywords. -/
theorem names_of_typeProblem? {raw : String} (h : typeProblem? raw = none) :
    ∀ name ∈ (ValueType.parse raw).name :: (ValueType.parse raw).alternates,
      Grammar.isQualifiedName name = true ∨ (ScalarKind.ofKeyword? name).isSome = true := by
  unfold typeProblem? at h
  split at h
  next =>
    split at h
    next hgrammar => exact fun name hname => .inl (names_of_isLinkedType hgrammar name hname)
    next => cases h
  next hnot =>
    have hlinked : ValueType.linkedPart? raw.toList = none := by
      rw [ValueType.linkedPart?, Option.not_isSome_iff_eq_none.mp hnot]
      rfl
    have hplain (hfilled : Text.EndsFilled raw.toList) :
        (ValueType.parse raw).name :: (ValueType.parse raw).alternates = [raw] := by
      rw [ValueType.parse_of_endsFilled hfilled hlinked]
    split at h
    next hgrammar =>
      have hfilled := Text.endsFilled_of_forall (Grammar.forall_of_isQualifiedChars hgrammar)
      rw [hplain hfilled]
      exact List.forall_mem_singleton.mpr (.inl hgrammar)
    next =>
      split at h
      next hbare =>
        split at h
        next hkeyword =>
          have hletters := List.all_eq_true.mp (Bool.and_eq_true_iff.mp hbare).2
          have hfilled : Text.EndsFilled raw.toList := Text.endsFilled_of_forall fun c hc =>
            Grammar.isBlank_eq_false (Grammar.isNameChar_of_isLowerLetter (hletters c hc))
          rw [hplain hfilled]
          exact List.forall_mem_singleton.mpr (.inr hkeyword)
        next => cases h
      next => cases h

/-- The type of a text without problems has a proper package name, if it has one. -/
theorem packageNamed_of_typeProblem? {raw : String} (h : typeProblem? raw = none) :
    (ValueType.parse raw).PackageNamed := by
  rcases names_of_typeProblem? h _ List.mem_cons_self with hqualified | hkeyword
  · exact packageNamed_of_isQualifiedChars hqualified String.ofList_toList.symm
  · intro parts hparts
    rw [ScalarKind.ofKeyword?_of_splitQualified hparts] at hkeyword
    cases hkeyword

/-- Properties have no problems one by one. -/
theorem checkProperty_of_checkProperties {owner : String} {seen : List String} {entries : List Json}
    (h : checkProperties owner seen entries = []) {entry : Json} (hentry : entry ∈ entries) :
    ∃ before, checkProperty owner before entry = [] := by
  induction entries generalizing seen with
  | nil => cases hentry
  | cons first rest ih =>
    obtain ⟨hfirst, hrest⟩ := List.append_eq_nil_iff.mp h
    rcases List.mem_cons.mp hentry with rfl | hentry
    · exact ⟨seen, hfirst⟩
    · exact ih hrest hentry

/-- What is read from a property without problems has a proper name and the type of a text without problems. -/
theorem proper_of_checkProperty {owner owner' : String} {seen : List String} {entry : Json}
    {docStrings : List (String × Json)} {p : PropertyDeclaration} (h : checkProperty owner seen entry = [])
    (hp : Declaration.readProperty owner' docStrings entry = .ok p) :
    Grammar.isPropertyName p.name = true ∧ ∃ raw, p.type = .parse raw ∧ typeProblem? raw = none := by
  obtain ⟨⟨type, encoding, rest, rfl, -⟩, -⟩ := Declaration.readProperty_ok_iff.mp ⟨p, hp, rfl⟩
  obtain ⟨raw, ⟨_, _, hentry⟩, htype⟩ := Declaration.exists_type_of_readProperty hp
  obtain ⟨name, ⟨type', _, _, hclean, hname, hnone, -⟩, -⟩ := checkProperty_eq_nil_iff.mp h
  simp only [Json.list.injEq, List.cons.injEq, Json.text.injEq] at hentry hclean
  obtain ⟨-, rfl, -⟩ := hentry
  obtain ⟨rfl, rfl, -⟩ := hclean
  exact ⟨hname, type, htype, hnone⟩

end Validation

/-- In a schema without problems declared properties are read from entries without problems. -/
theorem Schema.exists_entry_of_declarations {s : Schema} (hs : s.problems = []) {qs : List PackageDeclaration}
    (h : s.declarations = .ok qs) {q : PackageDeclaration} (hq : q ∈ qs) {c : ClassDeclaration} (hc : c ∈ q.classes)
    {p : PropertyDeclaration} (hp : p ∈ c.properties) :
    ∃ owner owner' docStrings before entry, Declaration.readProperty owner docStrings entry = .ok p ∧
      Validation.checkProperty owner' before entry = [] := by
  obtain ⟨package, hpackage, d, hd, hkind, body, hbody, hread⟩ :=
    Declaration.exists_definition_of_readPackages h hq hc
  simp only [Declaration.readClass, Declaration.bind_eq_ok, Declaration.listField_eq_ok,
    Declaration.pure_eq_ok] at hread
  obtain ⟨entries, hentries, ps, hps, _, _, _, _, _, _, _, _, rfl⟩ := hread
  obtain ⟨entry, hentry, hproperty⟩ := (Declaration.readsDistinct_readProperties _ _).exists_entry hps hp
  simp only [problems, List.append_eq_nil_iff, List.flatMap_eq_nil_iff] at hs
  have hchecked := hs.2 package hpackage
  simp only [Validation.checkPackage, List.append_eq_nil_iff, List.flatMap_eq_nil_iff] at hchecked
  have hdefinition := hchecked.2 d hd
  simp only [Validation.checkDefinition, hbody, hkind, Validation.checkClass, List.append_eq_nil_iff,
    Validation.checkList_eq_nil] at hdefinition
  obtain ⟨-, -, ⟨⟨⟨-, entries', hentries', hproperties⟩, -⟩, -⟩, -⟩ := hdefinition
  obtain rfl := Option.some.inj (hentries.symm.trans hentries')
  obtain ⟨before, hclean⟩ := Validation.checkProperty_of_checkProperties hproperties hentry
  exact ⟨_, _, _, before, entry, hproperty, hclean⟩

/-- In a schema without problems the types of declared properties have proper package names. -/
theorem Schema.packageNamed_of_declarations {s : Schema} (hs : s.problems = []) {qs : List PackageDeclaration}
    (h : s.declarations = .ok qs) {q : PackageDeclaration} (hq : q ∈ qs) {c : ClassDeclaration}
    (hc : c ∈ q.classes) : ∀ p ∈ c.properties, p.type.PackageNamed := by
  intro p hp
  obtain ⟨_, _, _, _, _, hread, hclean⟩ := exists_entry_of_declarations hs h hq hc hp
  obtain ⟨-, raw, htype, hraw⟩ := Validation.proper_of_checkProperty hclean hread
  exact htype ▸ Validation.packageNamed_of_typeProblem? hraw

end OntologyCompiler
