import Mathlib.Data.List.Forall2
import OntologyCompiler.Proofs.Literals.Reading
import OntologyCompiler.Proofs.Modules.Sheets
import OntologyCompiler.Proofs.Names.Constants

/-!
# Members of generated enumerations

A member is set to the literal of its name, with its doc behind it in a comment. Whatever the name is, its literal has no
control characters and can be read back. The doc is only trimmed, so a line break inside it stays, and there the comment
ends. Hence a member is on one line, and none of its doc is code, exactly if its trimmed doc has no line break.
-/

namespace OntologyCompiler

/-- A character that ends a line. -/
def isBreak (c : Char) : Bool := c == '\n' || c == '\r'

/-- The text is on one line. -/
def Unbroken (s : String) : Prop := ∀ c ∈ s.toList, isBreak c = false

instance (s : String) : Decidable (Unbroken s) :=
  decidable_of_iff (s.toList.all (!isBreak ·) = true) (by simp [Unbroken])

/-- What a reader of code is in: code, a text between quotes, an escape in such a text, or a comment. -/
inductive CodeState where
  | code
  | quoted
  | escaped
  | comment

/-- A text without its comments. A comment does not start between quotes and ends with its line. -/
def uncommented : CodeState → List Char → List Char
  | _, [] => []
  | .code, c :: cs =>
    if c = '#' then uncommented .comment cs else c :: uncommented (if c = '"' then .quoted else .code) cs
  | .quoted, c :: cs =>
    c :: uncommented (if c = '"' then .code else if c = '\\' then .escaped else .quoted) cs
  | .escaped, c :: cs => c :: uncommented .quoted cs
  | .comment, c :: cs => if isBreak c then c :: uncommented .code cs else uncommented .comment cs

section Comments

variable {cs rest : List Char} {s t : String}

/-- Two texts on one line make one line. -/
theorem unbroken_append_iff : Unbroken (s ++ t) ↔ Unbroken s ∧ Unbroken t := by
  rw [Unbroken, String.toList_append]
  exact List.forall_mem_append

/-- A text without control characters is on one line. -/
theorem Text.Visible.unbroken (h : Text.Visible s) : Unbroken s := by
  intro c hc
  have hvisible := h c hc
  simp only [isBreak, Bool.or_eq_false_iff, beq_eq_false_iff_ne]
  refine ⟨?_, ?_⟩ <;> (rintro rfl; exact absurd hvisible (by decide))

/-- Code in which neither a comment nor a text starts stays. -/
theorem uncommented_append (h : ∀ c ∈ cs, c ≠ '#' ∧ c ≠ '"') :
    uncommented .code (cs ++ rest) = cs ++ uncommented .code rest := by
  induction cs with
  | nil => rfl
  | cons c cs ih =>
    obtain ⟨⟨hmark, hquote⟩, hcs⟩ := List.forall_mem_cons.mp h
    rw [List.cons_append, uncommented, if_neg hmark, if_neg hquote, ih hcs, List.cons_append]

/-- Between quotes all stays that has neither a quote nor a backslash. -/
theorem uncommented_quoted_append (h : ∀ c ∈ cs, c ≠ '"' ∧ c ≠ '\\') :
    uncommented .quoted (cs ++ rest) = cs ++ uncommented .quoted rest := by
  induction cs with
  | nil => rfl
  | cons c cs ih =>
    obtain ⟨⟨hquote, hbackslash⟩, hcs⟩ := List.forall_mem_cons.mp h
    rw [List.cons_append, uncommented, if_neg hquote, if_neg hbackslash, ih hcs, List.cons_append]

/-- What is written for a character stays between the quotes. -/
theorem uncommented_of_escaped {c : Char} (h : Json.Escaped c cs) :
    uncommented .quoted (cs ++ rest) = cs ++ uncommented .quoted rest := by
  have hdigit : ∀ n < 16, Json.hexDigit n ≠ '"' ∧ Json.hexDigit n ≠ '\\' := by decide
  have hzero : '0' ≠ '"' ∧ '0' ≠ '\\' := by decide
  cases h with
  | self hquote hbackslash _ => exact uncommented_quoted_append (List.forall_mem_singleton.mpr ⟨hquote, hbackslash⟩)
  | letter _ => rfl
  | codePoint hcontrol =>
    have hdigits : ∀ d ∈ ['0', '0', Json.hexDigit (c.toNat / 16), Json.hexDigit (c.toNat % 16)], d ≠ '"' ∧ d ≠ '\\' := by
      simp only [List.forall_mem_cons]
      exact ⟨hzero, hzero, hdigit _ (by omega), hdigit _ (by omega), nofun⟩
    exact congrArg (fun cs => '\\' :: 'u' :: cs) (uncommented_quoted_append hdigits)

/-- A text between quotes stays as it is, and what follows it is code. -/
theorem uncommented_quote (s : String) :
    uncommented .code ((Json.quote s).toList ++ rest) = (Json.quote s).toList ++ uncommented .code rest := by
  have hchars (cs : List Char) : uncommented .quoted (cs.flatMap Json.escapeChar ++ '"' :: rest) =
      cs.flatMap Json.escapeChar ++ '"' :: uncommented .code rest := by
    induction cs with
    | nil => rfl
    | cons c cs ih => rw [List.flatMap_cons, List.append_assoc, uncommented_of_escaped (Json.escaped_escapeChar c), ih,
      List.append_assoc]
  rw [Json.toList_quote, List.cons_append, List.append_assoc]
  change '"' :: uncommented .quoted (_ ++ '"' :: rest) = _
  rw [hchars, List.cons_append, List.append_assoc]
  rfl

/-- Nothing of a comment is code up to the first line break, which is. -/
theorem uncommented_comment (cs : List Char) :
    uncommented .comment cs = uncommented .code (cs.dropWhile fun c => !isBreak c) := by
  induction cs with
  | nil => rfl
  | cons c cs ih =>
    cases hc : isBreak c with
    | true =>
      have hcode : c ≠ '#' ∧ c ≠ '"' := by
        refine ⟨?_, ?_⟩ <;> (rintro rfl; cases hc)
      simp [uncommented, hc, hcode]
    | false => simp [uncommented, hc, ih]

/-- Nothing is left of what follows the first line break exactly if there is none. -/
theorem uncommented_dropWhile_eq_nil_iff :
    uncommented .code (cs.dropWhile fun c => !isBreak c) = [] ↔ ∀ c ∈ cs, isBreak c = false := by
  rw [← uncommented_comment]
  induction cs with
  | nil => exact ⟨fun _ => nofun, fun _ => rfl⟩
  | cons c cs ih => cases hc : isBreak c <;> simp [uncommented, hc, ih]

end Comments

/-- A text is trimmed to nothing exactly if it is blank. -/
theorem Text.trimmed_eq_empty_iff {s : String} : trimmed s = "" ↔ isBlankText s = true := by
  rw [trimmed, String.ofList_eq_empty_iff, isBlankText, List.all_eq_true]
  constructor
  · intro htrim
    obtain ⟨before, after, heq, hbefore, hafter⟩ := exists_eq_append_trim s.toList
    rw [htrim, List.append_nil] at heq
    rw [heq]
    exact List.forall_mem_append.mpr ⟨hbefore, hafter⟩
  · intro hblank
    rw [trim, List.dropWhile_eq_nil_iff.mpr hblank]
    rfl

namespace DataModel

/-- The statement that sets the constant of a member to its name. -/
def setting (m : EnumMember) (constant : String) : String := "    " ++ constant ++ " = " ++ Json.quote m.name

/-- The lines of an enumeration in front of its members. -/
def enumOpening (e : Enumeration) : List String :=
  [ "class " ++ Naming.className e.name ++ "(enum.Enum):", Docstring.render e.doc "    " ] ++
    if e.members.isEmpty then ["    pass"] else []

/-- The lines of an enumeration behind its members. -/
def enumClosing (e : Enumeration) : List String :=
  [ "", "", Naming.className e.name ++ ".is_open = " ++ Literal.flag e.isOpen ]

/-- The blanks between a member and its comment. -/
def blanks (m : EnumMember) : String := if Text.trimmed m.doc = "" then "" else "  "

/-- A member as it is written. Its trimmed doc decides whether it is on one line and whether the statement is all of its
code. -/
structure WrittenMember (m : EnumMember) (constant line : String) : Prop where
  constant_legal : constant.toList ∈ Naming.constantNames
  name_read : Literal.read (Json.quote m.name) = some (.text m.name)
  line_eq : line = setting m constant ++ if Text.trimmed m.doc = "" then "" else "  # " ++ Text.trimmed m.doc
  setting_unbroken : Unbroken (setting m constant)
  unbroken_iff : Unbroken line ↔ Unbroken (Text.trimmed m.doc)
  /-- The statement is code, and so is what follows the first line break of the doc. -/
  code_eq : uncommented .code line.toList = (setting m constant ++ blanks m).toList ++
    uncommented .code ((Text.trimmed m.doc).toList.dropWhile fun c => !isBreak c)
  commented_iff : uncommented .code line.toList = (setting m constant ++ blanks m).toList ↔
    Unbroken (Text.trimmed m.doc)

section Written

variable {m : EnumMember} {constant : String}

/-- A comment is written behind a member exactly if something is left of its trimmed doc. -/
theorem memberComment_eq (doc : String) :
    memberComment doc = if Text.trimmed doc = "" then "" else "  # " ++ Text.trimmed doc := by
  simp only [memberComment, Text.trimmed_eq_empty_iff]

/-- The statement of a member is on one line. -/
theorem unbroken_setting (h : ∀ c ∈ constant.toList, (c.isUpper || c.isDigit || c == '_') = true) :
    Unbroken (setting m constant) := by
  have hconstant : Unbroken constant := by
    intro c hc
    simp only [isBreak, Bool.or_eq_false_iff, beq_eq_false_iff_ne]
    refine ⟨?_, ?_⟩ <;> (rintro rfl; exact absurd (h _ hc) (by decide))
  have hindent : Text.Visible "    " ∧ Text.Visible " = " := by decide
  simp only [setting, unbroken_append_iff]
  exact ⟨⟨⟨hindent.1.unbroken, hconstant⟩, hindent.2.unbroken⟩, (Json.visible_quote m.name).unbroken⟩

/-- All of the statement of a member is code. -/
theorem uncommented_setting (h : ∀ c ∈ constant.toList, (c.isUpper || c.isDigit || c == '_') = true) (rest : List Char) :
    uncommented .code ((setting m constant).toList ++ rest) =
      (setting m constant).toList ++ uncommented .code rest := by
  have hconstant : ∀ c ∈ constant.toList, c ≠ '#' ∧ c ≠ '"' := by
    intro c hc
    refine ⟨?_, ?_⟩ <;> (rintro rfl; exact absurd (h _ hc) (by decide))
  have hindent : (∀ c ∈ "    ".toList, c ≠ '#' ∧ c ≠ '"') ∧ ∀ c ∈ " = ".toList, c ≠ '#' ∧ c ≠ '"' := by simp
  simp only [setting, String.toList_append, List.append_assoc]
  rw [uncommented_append hindent.1, uncommented_append hconstant, uncommented_append hindent.2, uncommented_quote]

/-- Behind code a comment leaves its blanks and what follows its first line break. -/
theorem uncommented_memberComment (m : EnumMember) : uncommented .code (memberComment m.doc).toList =
    (blanks m).toList ++ uncommented .code ((Text.trimmed m.doc).toList.dropWhile fun c => !isBreak c) := by
  rw [memberComment_eq, blanks]
  split
  next hempty => rw [hempty]; rfl
  next =>
    have hmark : "  # ".toList = "  ".toList ++ ['#', ' '] := by decide
    have hblanks : ∀ c ∈ "  ".toList, c ≠ '#' ∧ c ≠ '"' := by simp
    rw [String.toList_append, hmark, List.append_assoc, uncommented_append hblanks, List.cons_append, uncommented,
      if_pos rfl, List.singleton_append, uncommented, if_neg (by decide), uncommented_comment]

/-- Members are written with the constants of their enumeration. -/
theorem writtenMember_memberLine (h : constant.toList ∈ Naming.constantNames) :
    WrittenMember m constant (memberLine m constant) := by
  have hchars := Naming.forall_of_mem_constantNames h
  have hcode : uncommented .code (memberLine m constant).toList = (setting m constant ++ blanks m).toList ++
      uncommented .code ((Text.trimmed m.doc).toList.dropWhile fun c => !isBreak c) := by
    change uncommented .code (setting m constant ++ memberComment m.doc).toList = _
    rw [String.toList_append, uncommented_setting hchars, uncommented_memberComment, String.toList_append,
      List.append_assoc]
  refine ⟨h, Literal.read_render (.text m.name), ?_, unbroken_setting hchars, ?_, hcode, ?_⟩
  · rw [← memberComment_eq]
    rfl
  · change Unbroken (setting m constant ++ memberComment m.doc) ↔ _
    rw [unbroken_append_iff, and_iff_right (unbroken_setting hchars), memberComment_eq]
    split
    next hempty => rw [hempty]
    next =>
      have hmark : Text.Visible "  # " := by decide
      rw [unbroken_append_iff, and_iff_right hmark.unbroken]
  · rw [hcode, List.append_right_eq_self, uncommented_dropWhile_eq_nil_iff]
    rfl

end Written

end DataModel

/-- The enumerations are among the items. -/
theorem Backend.ofEnum_mem_items {o : Ontology} {e : Enumeration} : .ofEnum e ∈ o.items ↔ e ∈ o.enums := by
  simp [Ontology.items, o.listing_sorted.enums_perm.mem_iff]

namespace Schema

variable {s : Schema} {o : Ontology}

/-- The members of the enumerations of a built schema are written one by one between the lines of their enumeration.
Each sets a constant to a literal that is read as its name, and has its trimmed doc in a comment behind it. It is on one
line, and has no other code, exactly if there is no line break in that doc. -/
theorem members_unbroken_iff (h : s.build = .ok o) :
    Backend.dataModel.Publishes o (Backend.dataModel.sheets o) ∧
      ∀ e ∈ o.enums, ∃ g ∈ Backend.dataModel.sheets o, .ofEnum e ∈ g.items ∧ ∃ lines,
        Backend.dataModel.text o g.package (.ofEnum e) =
            Text.join "\n" (DataModel.enumOpening e ++ lines ++ DataModel.enumClosing e) ∧
          lines.length = e.members.length ∧
          List.Forall₂ (fun member line => DataModel.WrittenMember member.1 member.2 line)
            (e.members.zip (Naming.uniqueConstants (e.members.map EnumMember.name))) lines := by
  have hsheets : Backend.dataModel.Publishes o (Backend.dataModel.sheets o) :=
    Backend.publishes_sheets (wired_of_build h) (by decide)
  refine ⟨hsheets, fun e he => ?_⟩
  obtain ⟨g, hg, hitem⟩ := hsheets.complete _ (Backend.ofEnum_mem_items.mpr he) rfl
  refine ⟨g, hg, hitem, ?_⟩
  let constants := Naming.uniqueConstants (e.members.map EnumMember.name)
  have hlength : constants.length = e.members.length :=
    (Naming.length_uniqueFrom [] _).trans (List.length_map _)
  refine ⟨List.zipWith DataModel.memberLine e.members constants, rfl, by simp [hlength], ?_⟩
  rw [← List.map_uncurry_zip_eq_zipWith, List.forall₂_map_right_iff, List.forall₂_same]
  exact fun member hmember =>
    DataModel.writtenMember_memberLine (Naming.mem_constantNames_of_mem_uniqueConstants (List.of_mem_zip hmember).2)

/-- An enumeration with a plain doc for one member and a given one for another. -/
def candy (doc : String) : Schema :=
  ⟨"candy", "1", "", [⟨"shop", some "Sugar.", none, some (.ofList [("taste", .object [("is_open", .boolean false),
    ("members", .list [.list [.text "low", .text "Bitter."], .list [.text "very high", .text doc]])])])⟩]⟩

/-- A plain doc stays in its comment. The second line of a broken one is code. -/
theorem candy_members_broken : (candy "Sweet.\nimport os").problems = [] ∧
    ∃ o, (candy "Sweet.\nimport os").build = .ok o ∧ ∀ e ∈ o.enums, ∃ g ∈ Backend.dataModel.sheets o,
      .ofEnum e ∈ g.items ∧ ∃ low high, Backend.dataModel.text o g.package (.ofEnum e) =
          Text.join "\n" (DataModel.enumOpening e ++ [low, high] ++ DataModel.enumClosing e) ∧
        Unbroken low ∧ ¬ Unbroken high ∧
        String.ofList (uncommented .code high.toList) = "    VERY_HIGH = \"very high\"  \nimport os" := by
  have hbuild : (candy "Sweet.\nimport os").build.map (fun o => o.enums.map Enumeration.members) =
      .ok [[⟨"low", "Bitter."⟩, ⟨"very high", "Sweet.\nimport os"⟩]] := by cbv
  obtain ⟨o, ho, henums⟩ := Declaration.map_eq_ok.mp hbuild
  refine ⟨by decide +kernel, o, ho, fun e he => ?_⟩
  have hmembers : e.members = [⟨"low", "Bitter."⟩, ⟨"very high", "Sweet.\nimport os"⟩] :=
    List.mem_singleton.mp (henums ▸ List.mem_map_of_mem he)
  obtain ⟨g, hg, hitem, lines, htext, -, hwritten⟩ := (members_unbroken_iff ho).2 e he
  have hconstants : Naming.uniqueConstants ["low", "very high"] = ["LOW", "VERY_HIGH"] := by decide +kernel
  rw [hmembers, List.map_cons, List.map_cons, List.map_nil, hconstants] at hwritten
  obtain ⟨low, rest, hlow, hrest, rfl⟩ := List.forall₂_cons_left_iff.mp hwritten
  obtain ⟨high, _, hhigh, hnil, rfl⟩ := List.forall₂_cons_left_iff.mp hrest
  obtain rfl := List.forall₂_nil_left_iff.mp hnil
  have hplain : Unbroken (Text.trimmed "Bitter.") := by decide +kernel
  have hbroken : ¬ Unbroken (Text.trimmed "Sweet.\nimport os") := by decide +kernel
  refine ⟨g, hg, hitem, low, high, htext, hlow.unbroken_iff.mpr hplain, mt hhigh.unbroken_iff.mp hbroken, ?_⟩
  rw [hhigh.code_eq]
  decide +kernel

end Schema

end OntologyCompiler
