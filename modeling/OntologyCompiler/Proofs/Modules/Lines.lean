import OntologyCompiler.Proofs.Modules.Layout

/-!
# Lines of generated code

Generated code is made of lines of code and of docstrings, which may go over several lines. A docstring ends at the
first three quotes behind those that open it. So what stands in a docstring must not have three quotes in a row, and
must not end in a quote either, as that would count with those of the delimiter.
-/

namespace OntologyCompiler

namespace Docstring

/-- What opens and closes a docstring. -/
def delimiter : List Char := ['"', '"', '"']

/-- The parts in front of the first delimiter and behind it. -/
def cut? : List Char → Option (List Char × List Char)
  | '"' :: '"' :: '"' :: rest => some ([], rest)
  | c :: cs => (cut? cs).map fun parts => (c :: parts.1, parts.2)
  | [] => none

/-- A text that a delimiter behind it closes just where it ends. -/
structure Fits (text : List Char) : Prop where
  free : ¬ delimiter <:+: text
  ends : text.getLast? ≠ some '"'

variable {c : Char} {cs text rest : List Char}

/-- A delimiter comes first if a quote does and two more follow. -/
theorem delimiter_prefix_iff : delimiter <+: c :: cs ↔ c = '"' ∧ ['"', '"'] <+: cs := by
  rw [delimiter, List.cons_prefix_cons, eq_comm]

/-- The empty text fits. -/
theorem fits_nil : Fits [] := ⟨by decide, by decide⟩

/-- A text fits if what follows its first character does and if that is not a quote with two more behind it, be they of
the text or of the delimiter. -/
theorem fits_cons_iff : Fits (c :: cs) ↔ Fits cs ∧ ¬ (c = '"' ∧ ['"', '"'] <+: cs ++ delimiter) := by
  have hfits (text : List Char) : Fits text ↔ ¬ delimiter <:+: text ∧ text.getLast? ≠ some '"' :=
    ⟨fun h => ⟨h.free, h.ends⟩, fun h => ⟨h.1, h.2⟩⟩
  rw [hfits, hfits, List.infix_cons_iff, delimiter_prefix_iff]
  match cs with
  | [] => simp [delimiter]
  | [d] =>
    simp [delimiter, List.cons_prefix_cons]
    tauto
  | d :: e :: cs =>
    simp only [List.getLast?_cons_cons, List.cons_append, List.cons_prefix_cons, List.nil_prefix]
    tauto

/-- Whether two quotes come first does not depend on what stands behind the delimiter. -/
theorem quotes_prefix_iff : ['"', '"'] <+: text ++ delimiter ++ rest ↔ ['"', '"'] <+: text ++ delimiter := by
  refine ⟨fun h => ?_, fun h => h.trans (List.prefix_append _ rest)⟩
  exact List.prefix_of_prefix_length_le h (List.prefix_append _ rest) (by simp [delimiter])

/-- A text is cut behind its first part that fits. -/
theorem cut?_eq_some_iff : cut? cs = some (text, rest) ↔ cs = text ++ delimiter ++ rest ∧ Fits text := by
  fun_induction cut? cs generalizing text with
  | case1 after =>
    constructor
    · intro h
      obtain ⟨rfl, rfl⟩ := Prod.mk.inj (Option.some.inj h)
      exact ⟨rfl, fits_nil⟩
    · rintro ⟨heq, hfits⟩
      cases text with
      | nil => simp_all [delimiter]
      | cons c text =>
        obtain ⟨rfl, hrest⟩ := List.cons.inj heq
        have hquotes : ['"', '"'] <+: text ++ delimiter ++ rest := ⟨after, hrest⟩
        exact absurd ⟨rfl, quotes_prefix_iff.mp hquotes⟩ (fits_cons_iff.mp hfits).2
  | case2 c cs hne ih =>
    rw [Option.map_eq_some_iff]
    constructor
    · rintro ⟨⟨text, rest⟩, hcut, heq⟩
      obtain ⟨rfl, rfl⟩ := Prod.mk.inj heq
      obtain ⟨rfl, hfits⟩ := ih.mp hcut
      refine ⟨rfl, fits_cons_iff.mpr ⟨hfits, ?_⟩⟩
      rintro ⟨rfl, hstart⟩
      obtain ⟨after, hafter⟩ := quotes_prefix_iff.mpr hstart
      exact hne after rfl hafter.symm
    · rintro ⟨heq, hfits⟩
      cases text with
      | nil =>
        obtain ⟨rfl, hrest⟩ := List.cons.inj heq
        exact absurd hrest (hne rest rfl)
      | cons d text =>
        obtain ⟨rfl, hrest⟩ := List.cons.inj heq
        exact ⟨(text, rest), ih.mpr ⟨hrest, (fits_cons_iff.mp hfits).1⟩, rfl⟩
  | case3 =>
    constructor
    · intro h
      cases h
    · rintro ⟨heq, -⟩
      simp [delimiter] at heq

/-- A character that is no quote ends a run of quotes. -/
theorem quotes_prefix_append_cons_iff (hc : c ≠ '"') : ['"', '"'] <+: text ++ c :: rest ↔ ['"', '"'] <+: text := by
  match text with
  | [] => simp [List.cons_prefix_cons, Ne.symm hc]
  | [d] => simp [List.cons_prefix_cons, Ne.symm hc]
  | d :: e :: text => simp [List.cons_prefix_cons]

/-- A text with a character that is no quote fits if its parts before and from that character on do, where the first may
end in a quote. -/
theorem fits_append_cons_iff (hc : c ≠ '"') :
    Fits (text ++ c :: rest) ↔ ¬ delimiter <:+: text ∧ Fits (c :: rest) := by
  induction text with
  | nil => exact (and_iff_right (by decide)).symm
  | cons d text ih =>
    rw [List.cons_append, fits_cons_iff, ih, List.append_assoc, List.cons_append, quotes_prefix_append_cons_iff hc,
      List.infix_cons_iff, delimiter_prefix_iff]
    tauto

/-- A text without quotes in front makes no delimiter. -/
theorem delimiter_infix_append_iff (h : '"' ∉ text) : delimiter <:+: text ++ rest ↔ delimiter <:+: rest := by
  induction text with
  | nil => rfl
  | cons c text ih =>
    obtain ⟨hc, htext⟩ := not_or.mp (mt List.mem_cons.mpr h)
    rw [List.cons_append, List.infix_cons_iff, delimiter_prefix_iff, ih htext]
    exact or_iff_right fun hstart => hc hstart.1.symm

/-- A text without quotes fits. -/
theorem fits_of_notMem (h : '"' ∉ text) : Fits text where
  free := by
    rw [← List.append_nil text, delimiter_infix_append_iff h]
    decide
  ends := fun hlast => h (List.mem_of_getLast? hlast)

/-- A quote that is left in a softened text was there. -/
theorem exists_of_softenChars (h : softenChars cs = '"' :: rest) :
    ∃ cs', cs = '"' :: cs' ∧ rest = softenChars cs' := by
  unfold softenChars at h
  split at h
  · cases h
  · obtain ⟨rfl, rfl⟩ := List.cons.inj h
    exact ⟨_, rfl, rfl⟩
  · cases h

/-- A softened text has no delimiter: three quotes that are left in a row would have come in a row, and these are
softened together. -/
theorem not_delimiter_infix_softenChars (cs : List Char) : ¬ delimiter <:+: softenChars cs := by
  fun_induction softenChars cs with
  | case1 rest ih =>
    simp only [List.infix_cons_iff, delimiter_prefix_iff]
    simpa using ih
  | case2 c cs hne ih =>
    rw [List.infix_cons_iff, delimiter_prefix_iff]
    rintro (⟨rfl, l, hl⟩ | hrest)
    · obtain ⟨cs', rfl, hl'⟩ := exists_of_softenChars hl.symm
      obtain ⟨cs'', rfl, -⟩ := exists_of_softenChars hl'.symm
      exact hne cs'' rfl rfl
    · exact ih hrest
  | case3 => decide

/-- What is written of a doc has no delimiter. -/
theorem not_delimiter_infix_body (doc : String) : ¬ delimiter <:+: (body doc).toList := by
  unfold body
  dsimp only
  split
  · exact (fits_of_notMem (by decide)).free
  · rw [String.toList_ofList]
    exact not_delimiter_infix_softenChars _

end Docstring

/-- A line of generated code, or a docstring behind an indent, which may go over several lines. -/
inductive CodeLine where
  | code (text : String)
  | docstring (indent text : String)

namespace CodeLine

/-- The text of a line. -/
def render : CodeLine → String
  | .code text => text
  | .docstring indent text => indent ++ "\"\"\"" ++ text ++ "\"\"\""

/-- The text of lines, with line feeds between them. -/
def spell (lines : List CodeLine) : String := Text.join "\n" (lines.map render)

/-- What stands behind a line in front of others. -/
def behind (rest : List CodeLine) : String := if rest.isEmpty then "" else "\n" ++ spell rest

/-- The docstring closes before what stands behind it: the first delimiter behind the opening one is its own. -/
def ClosesBefore (after : String) : CodeLine → Prop
  | .code _ => True
  | .docstring _ text =>
    Docstring.cut? (text.toList ++ Docstring.delimiter ++ after.toList) = some (text.toList, after.toList)

/-- Every docstring closes where its closing delimiter was written. -/
def Closed : List CodeLine → Prop
  | [] => True
  | line :: rest => line.ClosesBefore (behind rest) ∧ Closed rest

/-- The text of a docstring fits. -/
def Fits : CodeLine → Prop
  | .code _ => True
  | .docstring _ text => Docstring.Fits text.toList

/-- A line of code is one line that does not start as a docstring does. A docstring stands behind blanks and fits. -/
def Proper : CodeLine → Prop
  | .code text => '\n' ∉ text.toList ∧ ¬ Docstring.delimiter <+: text.toList.dropWhile (· = ' ')
  | .docstring indent text => (∀ c ∈ indent.toList, c = ' ') ∧ Docstring.Fits text.toList

variable {line : CodeLine} {lines : List CodeLine}

/-- The text of lines goes on behind the first one. -/
theorem spell_cons (line : CodeLine) (rest : List CodeLine) : spell (line :: rest) = line.render ++ behind rest := by
  cases rest with
  | nil => exact String.append_empty.symm
  | cons next rest => rfl

/-- Lines that are there, with a line feed behind them, are closed lines. -/
theorem spell_append_eq_closeLines (h : lines ≠ []) : spell lines ++ "\n" = Text.closeLines (lines.map render) :=
  Text.join_append_eq_closeLines fun hnil => h (List.map_eq_nil_iff.mp hnil)

/-- A docstring closes where it was closed exactly if its text fits, whatever stands behind it. -/
theorem closesBefore_iff {after : String} : line.ClosesBefore after ↔ line.Fits := by
  cases line with
  | code text => exact Iff.rfl
  | docstring indent text => exact Docstring.cut?_eq_some_iff.trans (and_iff_right rfl)

/-- Docstrings close where they were closed exactly if their texts fit. -/
theorem closed_iff : Closed lines ↔ ∀ line ∈ lines, line.Fits := by
  induction lines with
  | nil => exact ⟨fun _ => nofun, fun _ => trivial⟩
  | cons line rest ih => rw [Closed, closesBefore_iff, ih, List.forall_mem_cons]

/-- The text is that of these proper lines. -/
structure Spells (lines : List CodeLine) (text : String) : Prop where
  filled : lines ≠ []
  proper : ∀ line ∈ lines, line.Proper
  text_eq : text = spell lines

end CodeLine

namespace CodeModule

/-- The lines of the imports at the top of a module. -/
def topLines (top : List String) : List CodeLine :=
  if top.isEmpty then [] else CodeLine.code "" :: top.map fun x => CodeLine.code ("from . import " ++ x)

/-- The lines of the imports at the tail of a module. -/
def tailLines (tail : List String) : List CodeLine :=
  if tail.isEmpty then []
  else CodeLine.code "" :: CodeLine.code "# Circular imports" ::
    tail.map (fun x => CodeLine.code ("from . import " ++ x ++ "  # noqa: E402")) ++ [CodeLine.code ""]

/-- The lines of blocks, each behind an empty one. -/
def blockLines (blocks : List (List CodeLine)) : List CodeLine :=
  CodeLine.code "" :: blocks.flatMap fun block => CodeLine.code "" :: block

/-- The lines of a module that is laid out. -/
def layoutLines (header : List CodeLine) (top : List String) (blocks : List (List CodeLine)) (tail : List String) :
    List CodeLine :=
  header ++ topLines top ++ blockLines blocks ++ tailLines tail

/-- What the lines of the header and of the blocks have in common with lines of code, all lines have. -/
theorem forall_mem_layoutLines {holds : CodeLine → Prop} {header : List CodeLine} {top : List String}
    {blocks : List (List CodeLine)} {tail : List String} (hcode : ∀ text, holds (.code text))
    (hheader : ∀ line ∈ header, holds line) (hblocks : ∀ block ∈ blocks, ∀ line ∈ block, holds line) :
    ∀ line ∈ layoutLines header top blocks tail, holds line := by
  simp only [layoutLines, List.forall_mem_append]
  refine ⟨⟨⟨hheader, ?_⟩, ?_⟩, ?_⟩
  · unfold topLines
    split
    · exact nofun
    · exact List.forall_mem_cons.mpr ⟨hcode _, List.forall_mem_map.mpr fun _ _ => hcode _⟩
  · refine List.forall_mem_cons.mpr ⟨hcode _, List.forall_mem_flatMap.mpr fun block hblock => ?_⟩
    exact List.forall_mem_cons.mpr ⟨hcode _, hblocks block hblock⟩
  · unfold tailLines
    split
    · exact nofun
    · refine List.forall_mem_cons.mpr ⟨hcode _, List.forall_mem_cons.mpr ⟨hcode _, ?_⟩⟩
      have himports := List.forall_mem_map.mpr fun x (_ : x ∈ tail) => hcode ("from . import " ++ x ++ "  # noqa: E402")
      exact List.forall_mem_append.mpr ⟨himports, List.forall_mem_singleton.mpr (hcode _)⟩

/-- Blocks, each after two line ends, are closed lines if a line feed stands behind them. -/
theorem foldr_spell {blocks : List (List CodeLine)} (h : ∀ block ∈ blocks, block ≠ []) :
    (blocks.map CodeLine.spell).foldr (fun block rest => "\n\n" ++ (block ++ rest)) "" ++ "\n" =
      Text.closeLines ((blockLines blocks).map CodeLine.render) := by
  unfold blockLines
  induction blocks with
  | nil => rfl
  | cons block blocks ih =>
    obtain ⟨hblock, hrest⟩ := List.forall_mem_cons.mp h
    have hlines (lines : List CodeLine) : Text.closeLines ((.code "" :: lines).map CodeLine.render) =
        "\n" ++ Text.closeLines (lines.map CodeLine.render) := by
      simp [Text.closeLines, CodeLine.render]
    rw [List.map_cons, List.foldr_cons, String.append_assoc, String.append_assoc, ih hrest, List.flatMap_cons,
      hlines, hlines, List.cons_append, hlines, List.map_append, Text.closeLines_append,
      ← CodeLine.spell_append_eq_closeLines hblock]
    simp only [← String.append_assoc]
    rfl

/-- The imports at the top are closed lines. -/
theorem closeLines_topLines (top : List String) : Text.closeLines ((topLines top).map CodeLine.render) =
    if top.isEmpty then "" else "\n" ++ Text.closeLines (top.map fun x => "from . import " ++ x) := by
  cases top with
  | nil => rfl
  | cons x top => simp [topLines, Text.closeLines, CodeLine.render, Function.comp_def]

/-- The imports at the tail are closed lines. -/
theorem closeLines_tailLines (tail : List String) : "\n" ++ Text.closeLines ((tailLines tail).map CodeLine.render) =
    (if tail.isEmpty then ""
      else "\n\n# Circular imports\n" ++
        Text.closeLines (tail.map fun x => "from . import " ++ x ++ "  # noqa: E402")) ++ "\n" := by
  cases tail with
  | nil => rfl
  | cons x tail =>
    have hmark : "\n\n# Circular imports\n" = "\n" ++ ("\n" ++ ("# Circular imports" ++ "\n")) := rfl
    simp only [tailLines, List.isEmpty_cons, Bool.false_eq_true, if_false, List.map_append, Text.closeLines_append]
    simp [Text.closeLines, CodeLine.render, Function.comp_def, String.append_assoc, hmark, -String.reduceAppend]

/-- The text of a module that is laid out is that of its lines. -/
theorem layout_eq_spell {header : List String} {headerLines : List CodeLine} {blocks : List (List CodeLine)}
    (top tail : List String)
    (hheader : Text.closeLines header = Text.closeLines (headerLines.map CodeLine.render))
    (hblocks : ∀ block ∈ blocks, block ≠ []) :
    layout header top (blocks.map CodeLine.spell) tail = CodeLine.spell (layoutLines headerLines top blocks tail) := by
  have hfilled : layoutLines headerLines top blocks tail ≠ [] := by simp [layoutLines, blockLines]
  have hmiddle (rest : String) : (blocks.map CodeLine.spell).foldr (fun block rest => "\n\n" ++ (block ++ rest)) "" ++
      ("\n" ++ rest) = Text.closeLines ((blockLines blocks).map CodeLine.render) ++ rest := by
    rw [← String.append_assoc, foldr_spell hblocks]
  apply String.toList_injective
  refine (List.append_left_inj "\n".toList).mp ?_
  rw [← String.toList_append, ← String.toList_append, CodeLine.spell_append_eq_closeLines hfilled, layout,
    ← closeLines_topLines, String.append_assoc, ← closeLines_tailLines, String.append_assoc, hmiddle, hheader,
    layoutLines]
  simp only [List.map_append, Text.closeLines_append, String.append_assoc]

end CodeModule

end OntologyCompiler
