import Mathlib
import OntologyCompiler.Proofs.Files.Commutation
import OntologyCompiler.Proofs.Generation.Parallel
import OntologyCompiler.Proofs.Loading.Names

/-!
# Parallel generation

All backends write into one directory, and no two of their files have one name: the name of a file tells the
backend by its ending and the package by its beginning. So the backends can run side by side: memory ends up
with an interleaving of what they emit, and a file tree is the same as if they had run in any order.
-/

namespace OntologyCompiler

/-- A name with the extension of a module is the name of an entry, unless it has a slash. -/
theorem Path.isEntry_append {stem : String} (h : '/' ∉ stem.toList) : IsEntry (stem ++ ".py") := by
  have hlast : (stem ++ ".py").toList.getLast? = some 'y' := by
    rw [String.toList_append]
    simp
  refine ⟨?_, fun heq => ?_, fun heq => ?_, fun heq => ?_⟩
  · rw [String.toList_append, List.mem_append, not_or]
    exact ⟨h, by decide⟩
  · rw [heq] at hlast
    cases hlast
  · rw [heq] at hlast
    exact absurd hlast (by decide)
  · rw [heq] at hlast
    exact absurd hlast (by decide)

namespace Backend

variable {o : Ontology} {options : GenerationOptions} {b b' : Backend}

/-- The name of a file of a backend: that of the root module, or that of a module of a package. -/
inductive HasFile (b : Backend) (o : Ontology) : String → Prop
  | root : b = .packageRoot → HasFile b o ("__init__" ++ ".py")
  | module (p : Package) : b ≠ .packageRoot → p ∈ o.packages → HasFile b o (Naming.fileName p.name b.suffix)

/-- What a backend emits goes to the directory of the ontology, under the name of one of its files. -/
theorem hasFile_of_mem_output {e : Emission} (h : e ∈ b.generator.output o options .empty) :
    e.directory = CodeModules.directory o ∧ b.HasFile o e.filename := by
  have hmodule (hb : b ≠ .packageRoot) (h : e ∈ (b.draft o options).modules.emissions o b.suffix) :
      e.directory = CodeModules.directory o ∧ b.HasFile o e.filename := by
    rw [modules_draft] at h
    obtain ⟨entry, hentry, rfl⟩ := List.mem_map.mp h
    obtain ⟨p, hp, hname⟩ := exists_package_of_mem_modules hentry
    exact ⟨rfl, hname ▸ .module p hb hp⟩
  unfold Generator.output at h
  split at h
  next =>
    rw [emissions_eq] at h
    cases b with
    | dataModel => exact hmodule (by decide) h
    | decodingRules => exact hmodule (by decide) h
    | instanceChecks => exact hmodule (by decide) h
    | packageRoot =>
      obtain rfl := List.mem_singleton.mp h
      exact ⟨rfl, .root rfl⟩
  next => cases h

section Names

variable (hnames : ∀ p ∈ o.packages, Grammar.isName p.name = true)

include hnames

/-- The names of files are names of entries. -/
theorem HasFile.isEntry {name : String} (h : b.HasFile o name) : Path.IsEntry name := by
  cases h with
  | root => exact Path.isEntry_append (by decide)
  | module p hb hp =>
    apply Path.isEntry_append
    rw [Naming.moduleName, Naming.snake_eq_self (hnames p hp), String.toList_append, String.toList_append,
      List.mem_append, List.mem_append]
    rintro (hmem | hmem | hmem)
    · exact absurd (Grammar.isNameChar_of_mem (hnames p hp) _ hmem) (by decide)
    · exact absurd hmem (by decide)
    · revert hmem hb
      cases b <;> decide

omit hnames in
/-- Different backends have files of different names. -/
theorem HasFile.eq_backend {name : String} (h : b.HasFile o name) (h' : b'.HasFile o name) : b = b' := by
  cases h with
  | root hb =>
    generalize hname : "__init__" ++ ".py" = name at h'
    cases h' with
    | root hb' => rw [hb, hb']
    | module p hb' hp => exact absurd ((String.append_left_inj _).mp hname).symm (moduleName_ne_init hb')
  | module p hb hp =>
    generalize hname : Naming.fileName p.name b.suffix = name at h'
    cases h' with
    | root hb' => exact absurd ((String.append_left_inj _).mp hname) (moduleName_ne_init hb)
    | module q hb' hq => exact eq_of_moduleName_eq hb hb' ((String.append_left_inj _).mp hname)

/-- The files of one backend have different names. -/
theorem nodup_filenames (b : Backend) (options : GenerationOptions) :
    ((b.generator.output o options .empty).map Emission.filename).Nodup := by
  have hmodule (suffix : String) :
      (((b.draft o options).modules.emissions o suffix).map Emission.filename).Nodup := by
    rw [modules_draft, CodeModules.emissions, List.map_map, List.Nodup, List.pairwise_map]
    refine (b.modules o).ascending.imp_of_mem fun {x y} hx hy hlt heq => ?_
    obtain ⟨p, hp, hxname⟩ := exists_package_of_mem_modules hx
    obtain ⟨q, hq, hyname⟩ := exists_package_of_mem_modules hy
    have hsnake := (String.append_left_inj _).mp ((String.append_left_inj _).mp heq)
    rw [Naming.snake_eq_self (hxname ▸ hnames p hp), Naming.snake_eq_self (hyname ▸ hnames q hq)] at hsnake
    rw [hsnake, Std.compare_self] at hlt
    cases hlt
  unfold Generator.output
  split
  next =>
    rw [emissions_eq]
    cases b with
    | dataModel => exact hmodule DataModel.suffix
    | decodingRules => exact hmodule DecodingRules.suffix
    | instanceChecks => exact hmodule InstanceChecks.suffix
    | packageRoot => exact List.nodup_singleton _
  next => exact List.nodup_nil

/-- No two files of different backends have one name. -/
theorem nodup_all_filenames (options : GenerationOptions) :
    ((all.flatMap fun b => b.generator.output o options .empty).map Emission.filename).Nodup := by
  rw [List.map_flatMap]
  refine List.nodup_flatMap.mpr ⟨fun b _ => nodup_filenames hnames b options, ?_⟩
  have hdifferent : all.Pairwise (· ≠ ·) := by decide
  refine hdifferent.imp fun {b b'} hne name hname hname' => ?_
  obtain ⟨e, he, rfl⟩ := List.mem_map.mp hname
  obtain ⟨f, hf, heq⟩ := List.mem_map.mp hname'
  have hother := (hasFile_of_mem_output hf).2
  rw [heq] at hother
  exact hne ((hasFile_of_mem_output he).2.eq_backend hother)

end Names

end Backend

/-- Entries with different names have different paths. -/
theorem nodup_paths {es : List Emission} (hentry : ∀ e ∈ es, Path.IsEntry e.filename)
    (hnodup : (es.map Emission.filename).Nodup) : (es.map fun e => Path.components e.path).Nodup := by
  rw [List.Nodup, List.pairwise_map] at hnodup ⊢
  refine hnodup.imp_of_mem fun {e f} he hf hne heq => hne ?_
  have hname (g : Emission) (hg : g ∈ es) : Path.fileName? g.path = some g.filename :=
    (hentry g hg).fileName?_join
  have hsame : Path.fileName? e.path = Path.fileName? f.path := by
    unfold Path.fileName?
    rw [heq]
  rw [hname e he, hname f hf] at hsame
  exact Option.some.inj hsame

/-- Entries of one directory with different names can be written in any order. -/
theorem Writer.pairwise_swaps {root directory : String} {es : List Emission}
    (hentry : ∀ e ∈ es, e.directory = directory ∧ Path.IsEntry e.filename)
    (hnodup : (es.map Emission.filename).Nodup) :
    es.Pairwise fun e f => (files root).Swaps e f ∧ (files root).Swaps f e := by
  rw [List.Nodup, List.pairwise_map] at hnodup
  refine hnodup.imp_of_mem fun {e f} he hf hne => ?_
  obtain ⟨hedirectory, hename⟩ := hentry e he
  obtain ⟨hfdirectory, hfname⟩ := hentry f hf
  have hsame : e.directory = f.directory := hedirectory.trans hfdirectory.symm
  exact ⟨files_swaps hsame hename hfname hne, files_swaps hsame.symm hfname hename hne.symm⟩

namespace Backend

/-- What a backend offers to a writer that accepts it. -/
def written (b : Backend) (o : Ontology) (options : GenerationOptions) : List Emission :=
  b.generator.written o options .empty

/-- How a backend ends on a writer that accepts what it offers. -/
def verdict (b : Backend) (o : Ontology) (options : GenerationOptions) : Except CompileError Report :=
  b.generator.verdict o options .empty

/-- Parallel generation agrees with sequential generation. -/
structure ParallelAgrees (o : Ontology) (options : GenerationOptions) : Prop where
  /-- No two emissions have one path. -/
  paths : ((all.flatMap fun b => b.generator.output o options .empty).map fun e => Path.components e.path).Nodup
  /-- A memory ends up with an interleaving of what the backends emit, and the reports are the sequential ones. -/
  memory : ∀ log outcome k, Completes o options .memory (all.map fresh) [] log outcome k →
    outcome = (Generator.executeAll o options .memory (all.map fresh) []).1 ∧
      (∀ b ∈ all, (b.written o options).Sublist k) ∧ k.Perm (all.flatMap fun b => b.written o options)
  /-- A file tree is the same as if the backends had run one after another in any order, where no write fails
  either, and the reports are the sequential ones. -/
  files : ∀ root t log outcome t', Completes o options (.files root) (all.map fresh) t log outcome t' →
    outcome = (Generator.executeAll o options (.files root) (all.map fresh) t).1 ∧
      ∀ bs : List Backend, bs.Perm all → Generator.executeAll o options (.files root) (bs.map fresh) t =
        (Generator.collect (bs.map fun b => b.verdict o options), t')
  /-- The backends can run to their ends on a writer that accepts what they offer one after another. -/
  possible : ∀ (ω : Type) (w : Writer ω) (k k' : ω),
    w.writeAll (all.flatMap fun b => b.written o options) k = (.ok (), k') →
      ∃ log outcome k'', Completes o options w (all.map fresh) k log outcome k''

section Agreement

variable {o : Ontology} {options : GenerationOptions}

/-- What several fresh backends offer. -/
theorem flatMap_written_fresh (bs : List Backend) :
    ((bs.map fresh).flatMap fun g => g.1.written o options g.2) = bs.flatMap fun b => b.written o options := by
  rw [List.flatMap_map]
  rfl

/-- How several fresh backends end. -/
theorem map_verdict_fresh (bs : List Backend) :
    ((bs.map fresh).map fun g => g.1.verdict o options g.2) = bs.map fun b => b.verdict o options := by
  rw [List.map_map]
  rfl

/-- What backends offer is part of their output. -/
theorem written_sublist_output (bs : List Backend) : (bs.flatMap fun b => b.written o options).Sublist
    (bs.flatMap fun b => b.generator.output o options .empty) := by
  by_cases hrefused : Generator.Refused o options
  · have hnothing : (bs.flatMap fun b => b.written o options) = [] := by
      apply List.flatMap_eq_nil_iff.mpr
      intro b hb
      exact if_pos hrefused
    rw [hnothing]
    exact List.nil_sublist _
  · have hall (b : Backend) : b.written o options = b.generator.output o options .empty := if_neg hrefused
    simp only [hall, List.Sublist.refl]

variable (hnames : ∀ p ∈ o.packages, Grammar.isName p.name = true)

include hnames

/-- What the backends emit are entries of the directory of the ontology. -/
theorem isEntry_of_mem_output {e : Emission} (he : e ∈ all.flatMap fun b => b.generator.output o options .empty) :
    e.directory = CodeModules.directory o ∧ Path.IsEntry e.filename := by
  obtain ⟨b, -, he⟩ := List.mem_flatMap.mp he
  obtain ⟨hdirectory, hfile⟩ := hasFile_of_mem_output he
  exact ⟨hdirectory, hfile.isEntry hnames⟩

/-- Backends for packages with names agree when they run side by side. -/
theorem parallelAgrees : ParallelAgrees o options where
  paths := nodup_paths (fun e he => (isEntry_of_mem_output hnames he).2) (nodup_all_filenames hnames options)
  memory := by
    intro log outcome k hcompletes
    have h := hcompletes.interleaves
    have hk : k = logged log := by
      have hwritten := h.written
      rw [Writer.writeAll_memory, List.nil_append] at hwritten
      exact (Prod.mk.inj hwritten).2.symm
    subst hk
    refine ⟨?_, fun b hb => ?_, flatMap_written_fresh all ▸ h.perm⟩
    · rw [Generator.executeAll_of_written_ok (Writer.writeAll_memory _ _), h.outcome_eq]
    · obtain ⟨i, hi⟩ := List.mem_iff_getElem?.mp hb
      have hfresh : (all.map fresh)[i]? = some b.fresh := by
        rw [List.getElem?_map, hi]
        rfl
      have hown : loggedBy i log = b.written o options := h.own i b.fresh hfresh
      exact hown ▸ sublist_loggedBy i log
  files := by
    intro root t log outcome t' hcompletes
    have h := hcompletes.interleaves
    have hsorted : (all.flatMap fun b => b.written o options).Pairwise fun e f =>
        (Writer.files root).Swaps e f ∧ (Writer.files root).Swaps f e :=
      (Writer.pairwise_swaps (fun e he => isEntry_of_mem_output hnames he)
        (nodup_all_filenames hnames options)).sublist (written_sublist_output all)
    have hswaps : (logged log).Pairwise fun e f =>
        (Writer.files root).Swaps e f ∧ (Writer.files root).Swaps f e := by
      have hperm := flatMap_written_fresh all ▸ h.perm
      exact (hperm.pairwise_iff fun {e f} => And.symm).mpr hsorted
    have horder (bs : List Backend) (hbs : bs.Perm all) :
        Generator.executeAll o options (.files root) (bs.map fresh) t =
          (Generator.collect (bs.map fun b => b.verdict o options), t') := by
      have hperm : (logged log).Perm ((bs.map fresh).flatMap fun g => g.1.written o options g.2) := by
        rw [flatMap_written_fresh]
        exact (flatMap_written_fresh all ▸ h.perm).trans (hbs.symm.flatMap_right _)
      rw [Generator.executeAll_of_written_ok (Writer.writeAll_of_perm hperm hswaps h.written), map_verdict_fresh]
    refine ⟨?_, horder⟩
    rw [horder all (.refl _), h.outcome_eq, map_verdict_fresh]
  possible := by
    intro ω w k k' hwrite
    rw [← flatMap_written_fresh] at hwrite
    obtain ⟨log, outcome, hcompletes⟩ := exists_completes hwrite
    exact ⟨log, outcome, k', hcompletes⟩

end Agreement

end Backend

namespace Schema

/-- The backends of an ontology built from a valid schema agree when they run side by side. -/
theorem parallel_equals_sequential {s : Schema} {o : Ontology} (hs : s.problems = []) (h : s.build = .ok o)
    (options : GenerationOptions) : Backend.ParallelAgrees o options :=
  Backend.parallelAgrees (isName_of_build hs h)

/-- A schema of packages under the given names, with one class each. -/
def harbor (packages : List String) : Schema :=
  let ship := .object [("base", .null), ("is_abstract", .boolean false), ("properties", .list [])]
  ⟨"harbor", "1", "", packages.map fun name => ⟨name, some "Ships.", some (.ofList [("ship", ship)]), none⟩⟩

/-- Two packages of which one has the name that the other's decoding module would have. Their backends agree,
and they can run side by side. -/
theorem harbor_parallel : ∃ o, (harbor ["tide", "tide_decoder"]).build = .ok o ∧
    o.packages.map (OntologyCompiler.Package.name) = ["tide", "tide_decoder"] ∧ Backend.ParallelAgrees o default ∧
      ∃ log outcome k, Completes o default .memory (Backend.all.map Backend.fresh) [] log outcome k := by
  have hs : (harbor ["tide", "tide_decoder"]).problems = [] := by decide +kernel
  have hbuild : ((harbor ["tide", "tide_decoder"]).build.map fun o => o.packages.map (OntologyCompiler.Package.name)) =
      .ok ["tide", "tide_decoder"] := by
    cbv
  obtain ⟨o, ho, hpackages⟩ := Declaration.map_eq_ok.mp hbuild
  have hagrees : Backend.ParallelAgrees o default := parallel_equals_sequential hs ho default
  exact ⟨o, ho, hpackages, hagrees, hagrees.possible _ .memory [] _ (Writer.writeAll_memory _ _)⟩

end Schema

end OntologyCompiler
