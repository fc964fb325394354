import OntologyCompiler.Ontology.Fingerprint
import OntologyCompiler.Proofs.Fingerprint.Lines

/-!
# What can be read back from a fingerprint text

Behind its first line the text that is hashed goes on block by block, one for each class and each package. The start
of a line tells its kind, and only the first line of a block has a kind that opens one. So if no line has a line
feed, the text determines the blocks.
-/

namespace OntologyCompiler

/-- The kinds of lines about classes and packages. -/
inductive LineKind where
  | ofClass
  | imported
  | deferred
  | property
  | package
  | association
  | external
  deriving DecidableEq

/-- What a line of a kind starts with. -/
def LineKind.word : LineKind → String
  | .ofClass => "class "
  | .imported => "  import "
  | .deferred => "  circular "
  | .property => "  prop "
  | .package => "package "
  | .association => "  assoc "
  | .external => "  external "

/-- Whether a line of the kind is the first one of a block. -/
def LineKind.opens : LineKind → Bool
  | .ofClass => true
  | .package => true
  | _ => false

/-- A line about a class or a package. -/
structure Line where
  kind : LineKind
  text : String
  deriving DecidableEq

/-- The line as it is written. -/
def Line.render (line : Line) : String := line.kind.word ++ line.text

/-- The first four characters of a line tell its kind. -/
theorem LineKind.eq_of_take_eq {kind kind' : LineKind} (h : kind.word.toList.take 4 = kind'.word.toList.take 4) :
    kind = kind' := by
  cases kind <;> cases kind' <;> first | rfl | exact absurd h (by decide)

/-- Different lines are written differently. -/
theorem Line.render_injective : Function.Injective Line.render := by
  rintro ⟨kind, text⟩ ⟨kind', text'⟩ h
  have hstart (kind : LineKind) (text : String) :
      (Line.render ⟨kind, text⟩).toList.take 4 = kind.word.toList.take 4 := by
    have hlength : 4 ≤ kind.word.toList.length := by cases kind <;> decide
    rw [Line.render, String.toList_append, List.take_append_of_le_length hlength]
  obtain rfl : kind = kind' := LineKind.eq_of_take_eq (by rw [← hstart kind text, h, hstart])
  have hchars := congrArg String.toList h
  rw [Line.render, Line.render, String.toList_append, String.toList_append] at hchars
  exact congrArg (Line.mk kind) (String.toList_injective (List.append_cancel_left hchars))

/-- The lines about one class or one package. -/
structure Block where
  head : Line
  rest : List Line

namespace Block

/-- The lines of a block in order. -/
def lines (b : Block) : List Line := b.head :: b.rest

/-- The first line of the block opens it, and no other line opens a block. -/
structure Framed (b : Block) : Prop where
  head : b.head.kind.opens = true
  rest : ∀ line ∈ b.rest, line.kind.opens = false

/-- The texts of the lines of a kind behind the first line. -/
def texts (b : Block) (kind : LineKind) : List String := (b.rest.filter fun line => line.kind = kind).map Line.text

variable {bs bs' : List Block}

/-- Lines that open no block end where the next block starts. -/
theorem takeWhile_rest {b : Block} (hb : b.Framed) (hbs : ∀ b ∈ bs, b.Framed) :
    (b.rest ++ bs.flatMap lines).takeWhile (fun line => !line.kind.opens) = b.rest := by
  rw [List.takeWhile_append_of_pos fun line hline => by rw [hb.rest line hline, Bool.not_false]]
  cases bs with
  | nil => simp
  | cons b' bs => simp [lines, (hbs b' List.mem_cons_self).head]

/-- Blocks can be read back from their lines. -/
theorem flatMap_lines_inj (hbs : ∀ b ∈ bs, b.Framed) (hbs' : ∀ b ∈ bs', b.Framed)
    (h : bs.flatMap lines = bs'.flatMap lines) : bs = bs' := by
  induction bs generalizing bs' with
  | nil =>
    cases bs' with
    | nil => rfl
    | cons b' bs' => simp [lines] at h
  | cons b bs ih =>
    cases bs' with
    | nil => simp [lines] at h
    | cons b' bs' =>
      obtain ⟨hb, hbs⟩ := List.forall_mem_cons.mp hbs
      obtain ⟨hb', hbs'⟩ := List.forall_mem_cons.mp hbs'
      rw [List.flatMap_cons, List.flatMap_cons] at h
      have hhead : b.head = b'.head := (List.cons.inj h).1
      have hbehind : b.rest ++ bs.flatMap lines = b'.rest ++ bs'.flatMap lines := (List.cons.inj h).2
      have hrest : b.rest = b'.rest := by
        rw [← takeWhile_rest hb hbs, hbehind, takeWhile_rest hb' hbs']
      have hblock : b = b' := by
        rw [show b = ⟨b.head, b.rest⟩ from rfl, hhead, hrest]
      rw [hrest] at hbehind
      rw [hblock, ih hbs hbs' (List.append_cancel_left hbehind)]

end Block

namespace Ontology

/-- What a fingerprint says of the target of a type. -/
def printedTarget (o : Ontology) (t : ValueType) : String :=
  match t.entity? with
  | some entity => o.entityName entity
  | none => t.render

/-- The block about a class. -/
def classBlock (o : Ontology) (c : Class) : Block where
  head := ⟨.ofClass, c.qualifiedName ++ " base " ++ (c.base.map o.className).getD "-"⟩
  rest := c.imports.toList.map (fun e => ⟨.imported, e.render⟩) ++
    c.circularImports.toList.map (fun e => ⟨.deferred, e.render⟩) ++
      (o.allProperties c.id).map fun p =>
        ⟨.property, p.name ++ " " ++ o.printedTarget p.type ++ " " ++ p.cardinality.render⟩

/-- The block about a package. -/
def packageBlock (o : Ontology) (p : Package) : Block where
  head := ⟨.package, p.name⟩
  rest := p.associatedPackages.toList.map (fun id => ⟨.association, o.packageName id⟩) ++
    p.externalTypes.toList.map fun e => ⟨.external, e.render⟩

/-- The blocks about classes by qualified name, then those about packages by name. -/
def blocks (o : Ontology) : List Block :=
  (sortOn Class.qualifiedName o.classes).map o.classBlock ++ o.sortedPackages.map o.packageBlock

variable (o : Ontology)

/-- The lines about a class are those of its block. -/
theorem fingerprintClass_eq (c : Class) : o.fingerprintClass c = (o.classBlock c).lines.map Line.render := by
  have hhead : "class " ++ c.qualifiedName ++ " base " ++ (c.base.map o.className).getD "-" =
      "class " ++ (c.qualifiedName ++ " base " ++ (c.base.map o.className).getD "-") := by
    simp only [String.append_assoc]
  have hproperty (p : Property) : o.fingerprintProperty p =
      "  prop " ++ (p.name ++ " " ++ o.printedTarget p.type ++ " " ++ p.cardinality.render) := by
    cases hentity : p.type.entity? <;> simp only [fingerprintProperty, printedTarget, hentity, String.append_assoc]
  rw [fingerprintClass, hhead, funext hproperty]
  simp only [classBlock, Block.lines, List.map_cons, List.map_append, List.map_map, Function.comp_def, Line.render,
    LineKind.word, List.cons_append]

/-- The lines about a package are those of its block. -/
theorem fingerprintPackage_eq (p : Package) : o.fingerprintPackage p = (o.packageBlock p).lines.map Line.render := by
  simp only [fingerprintPackage, packageBlock, Block.lines, List.map_cons, List.map_append, List.map_map,
    Function.comp_def, Line.render, LineKind.word, List.cons_append]

/-- The lines that are hashed are the first one and those of the blocks. -/
theorem fingerprintLines_eq : o.fingerprintLines =
    (o.name ++ ":" ++ o.version) :: (o.blocks.flatMap Block.lines).map Line.render := by
  rw [fingerprintLines, blocks, List.flatMap_append, List.map_append, List.flatMap_map, List.flatMap_map,
    List.map_flatMap, List.map_flatMap, funext o.fingerprintClass_eq, funext o.fingerprintPackage_eq, List.cons_append]

/-- The texts of the import lines of a class. -/
theorem texts_imported (c : Class) :
    (o.classBlock c).texts .imported = c.imports.toList.map ImportEdge.render := by
  simp [Block.texts, classBlock, List.filter_map, Function.comp_def]

/-- The texts of the lines of a class about deferred imports. -/
theorem texts_deferred (c : Class) :
    (o.classBlock c).texts .deferred = c.circularImports.toList.map ImportEdge.render := by
  simp [Block.texts, classBlock, List.filter_map, Function.comp_def]

/-- The texts of the property lines of a class. -/
theorem texts_property (c : Class) : (o.classBlock c).texts .property =
    (o.allProperties c.id).map fun p => p.name ++ " " ++ o.printedTarget p.type ++ " " ++ p.cardinality.render := by
  simp [Block.texts, classBlock, List.filter_map, Function.comp_def]

/-- The texts of the association lines of a package. -/
theorem texts_association (q : Package) :
    (o.packageBlock q).texts .association = q.associatedPackages.toList.map o.packageName := by
  simp [Block.texts, packageBlock, List.filter_map, Function.comp_def]

/-- The texts of the lines of a package about external types. -/
theorem texts_external (q : Package) :
    (o.packageBlock q).texts .external = q.externalTypes.toList.map ImportEdge.render := by
  simp [Block.texts, packageBlock, List.filter_map, Function.comp_def]

/-- Every block starts with the line that opens it. -/
theorem framed_blocks : ∀ b ∈ o.blocks, b.Framed := by
  intro b hb
  rcases List.mem_append.mp hb with hb | hb
  · obtain ⟨c, -, rfl⟩ := List.mem_map.mp hb
    refine ⟨rfl, fun line hline => ?_⟩
    simp only [classBlock, List.mem_append, List.mem_map] at hline
    rcases hline with (⟨_, -, rfl⟩ | ⟨_, -, rfl⟩) | ⟨_, -, rfl⟩ <;> rfl
  · obtain ⟨p, -, rfl⟩ := List.mem_map.mp hb
    refine ⟨rfl, fun line hline => ?_⟩
    simp only [packageBlock, List.mem_append, List.mem_map] at hline
    rcases hline with ⟨_, -, rfl⟩ | ⟨_, -, rfl⟩ <;> rfl

variable {o} {o' : Ontology}

/-- Without line feeds the text determines the blocks. -/
theorem blocks_eq_of_fingerprintText_eq (hname : o'.name = o.name) (hversion : o'.version = o.version)
    (hlines : ∀ b ∈ o.blocks, ∀ line ∈ b.lines, '\n' ∉ line.render.toList)
    (hlines' : ∀ b ∈ o'.blocks, ∀ line ∈ b.lines, '\n' ∉ line.render.toList)
    (h : o'.fingerprintText = o.fingerprintText) : o'.blocks = o.blocks := by
  rw [fingerprintText, fingerprintText, fingerprintLines_eq, fingerprintLines_eq, hname, hversion] at h
  have hrest := (@Text.closeLines_append_left_inj _ _ [o.name ++ ":" ++ o.version]).mp h
  have hfree (o : Ontology) (hlines : ∀ b ∈ o.blocks, ∀ line ∈ b.lines, '\n' ∉ line.render.toList) :
      ∀ line ∈ (o.blocks.flatMap Block.lines).map Line.render, '\n' ∉ line.toList := by
    rw [List.forall_mem_map, List.forall_mem_flatMap]
    exact hlines
  have hrendered := Text.closeLines_injOn (hfree o' hlines') (hfree o hlines) hrest
  exact Block.flatMap_lines_inj o'.framed_blocks o.framed_blocks (Line.render_injective.list_map hrendered)

/-- The blocks about classes and those about packages can be told apart. -/
theorem blocks_eq_iff : o'.blocks = o.blocks ↔
    (sortOn Class.qualifiedName o'.classes).map o'.classBlock =
        (sortOn Class.qualifiedName o.classes).map o.classBlock ∧
      o'.sortedPackages.map o'.packageBlock = o.sortedPackages.map o.packageBlock := by
  constructor
  · intro h
    have hclasses (o : Ontology) : o.blocks.filter (fun b => b.head.kind = .ofClass) =
        (sortOn Class.qualifiedName o.classes).map o.classBlock := by
      simp [blocks, List.filter_map, Function.comp_def, classBlock, packageBlock]
    have hpackages (o : Ontology) : o.blocks.filter (fun b => b.head.kind = .package) =
        o.sortedPackages.map o.packageBlock := by
      simp [blocks, List.filter_map, Function.comp_def, classBlock, packageBlock]
    rw [← hclasses, ← hclasses, ← hpackages, ← hpackages, h]
    exact ⟨rfl, rfl⟩
  · rintro ⟨hclasses, hpackages⟩
    rw [blocks, blocks, hclasses, hpackages]

end Ontology

end OntologyCompiler
