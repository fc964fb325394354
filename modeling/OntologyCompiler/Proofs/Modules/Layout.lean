import OntologyCompiler.Proofs.Fingerprint.Lines
import OntologyCompiler.Proofs.Generation.Drafts
import OntologyCompiler.Proofs.Sorting

/-!
# How a module is laid out

A module that has a header is its header, the imports at its top, its blocks in their final order and the imports at its
tail, with all that stands between them. Blocks of a higher rank stand after those of a lower one. What a backend writes
is what it has gathered, if it is required at all.
-/

namespace OntologyCompiler

/-- Joined lines with a line feed behind them are closed lines. -/
theorem Text.join_append_eq_closeLines {lines : List String} (h : lines ≠ []) :
    join "\n" lines ++ "\n" = closeLines lines := by
  induction lines with
  | nil => exact absurd rfl h
  | cons line lines ih =>
    cases lines with
    | nil => simp [join, closeLines]
    | cons next lines =>
      have hrest := ih (List.cons_ne_nil next lines)
      change line ++ ("\n" ++ join "\n" (next :: lines)) ++ "\n" = line ++ ("\n" ++ closeLines (next :: lines))
      rw [String.append_assoc, String.append_assoc, hrest]

namespace CodeModule

/-- A header, imports at the top after an empty line, blocks, each after two line ends, and imports at the tail under a
comment. -/
def layout (header top blocks tail : List String) : String :=
  Text.closeLines header ++
    (if top.isEmpty then "" else "\n" ++ Text.closeLines (top.map fun x => "from . import " ++ x)) ++
    blocks.foldr (fun block rest => "\n\n" ++ (block ++ rest)) "" ++
    (if tail.isEmpty then ""
      else "\n\n# Circular imports\n" ++
        Text.closeLines (tail.map fun x => "from . import " ++ x ++ "  # noqa: E402"))

/-- The text of a module with a header is laid out. -/
theorem render_eq_layout {m : CodeModule} (h : m.header ≠ []) :
    m.render = layout m.header m.topImports.toList (m.sortedBlocks.map CodeBlock.text) m.tailImports.toList := by
  rw [render, Text.join_append_eq_closeLines h, layout, List.foldr_map]
  rfl

/-- What is laid out starts with its header. -/
theorem exists_layout_eq (header top blocks tail : List String) :
    ∃ rest, layout header top blocks tail = Text.closeLines header ++ rest := by
  unfold layout
  exact ⟨_, by rw [String.append_assoc, String.append_assoc]⟩

/-- Blocks of a higher rank stand after those of a lower one. -/
theorem isLE_blockOrder_of_rank_lt {a b : CodeBlock} (h : a.rank < b.rank) : (blockOrder a b).isLE = true := by
  rw [blockOrder, Nat.compare_eq_lt.mpr h]
  rfl

end CodeModule

namespace Backend

/-- A run over an ontology that its options allow succeeds, is skipped or not, and writes these emissions and no
others. -/
def Writes (b : Backend) (o : Ontology) (skipped : Prop) (es : List Emission) : Prop :=
  ∀ options : GenerationOptions, options.Allow o → ∃ report,
    (b.generator.execute o options .memory .empty []).outcome = .ok report ∧ (report.skipped = true ↔ skipped) ∧
      (b.generator.execute o options .memory .empty []).sink = es

/-- A backend is skipped if it is not required, and else writes what it has gathered. -/
theorem writes_of_output {b : Backend} {o : Ontology} {skipped : Prop} {es : List Emission}
    (hskipped : b.generator.isRequired o = false ↔ skipped)
    (hes : ∀ options, b.generator.output o options .empty = es) : b.Writes o skipped es := by
  intro options hallow
  have hwrite := Writer.writeAll_memory (b.generator.output o options .empty) []
  obtain ⟨houtcome, hsink⟩ := Generator.execute_of_output_ok hallow hwrite
  refine ⟨_, houtcome, ?_, ?_⟩
  · rw [← hskipped, Generator.summary]
    cases hrequired : b.generator.isRequired o with
    | false => simp
    | true => simp [Generator.reported, Report.new]
  · rw [hsink, hes, List.nil_append]

end Backend

end OntologyCompiler
