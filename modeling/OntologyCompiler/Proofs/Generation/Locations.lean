import OntologyCompiler.Proofs.Files.Containment
import OntologyCompiler.Proofs.Generation.Concurrency
import OntologyCompiler.Proofs.Modules.Docstrings

/-!
# Where generated files go

A version is any text that is not blank, with slashes and dots as it likes, and it becomes part of a directory. In front
of it stands a letter, so the directory is relative, and its dots become underscores, so no part of it is a dot or two.
Names of ontologies and packages have neither dots nor slashes. So every path that a backend emits leads down, and
whatever is written goes below the root of the output, in a run that ends well and in one that breaks off.
-/

namespace OntologyCompiler

variable {σ ω : Type} {w : Writer ω} {P : ω → Prop} {k : ω}

/-- What each write keeps, writes keep one after another. -/
theorem Writer.writeAll_keeps {es : List Emission} (h : ∀ e ∈ es, ∀ k, P k → P (w.write e k).2) (hk : P k) :
    P (w.writeAll es k).2 := by
  induction es generalizing k with
  | nil => exact hk
  | cons e es ih =>
    obtain ⟨he, hes⟩ := List.forall_mem_cons.mp h
    have hnext := he k hk
    rw [writeAll]
    split
    next heq =>
      rw [heq] at hnext
      exact ih hes hnext
    next heq => rwa [heq] at hnext

namespace Generator

variable {g : Generator σ} {o : Ontology} {options : GenerationOptions} {s : σ}

/-- What each write keeps, a walk keeps. -/
theorem walk_keeps {stops : List Visit} (h : ∀ e ∈ g.emissions o options stops s, ∀ k, P k → P (w.write e k).2)
    (r : Report) (hk : P k) : P (g.walk o options w stops r s k).sink := by
  induction stops generalizing s r k with
  | nil => exact hk
  | cons v stops ih =>
    obtain ⟨hfirst, hrest⟩ := List.forall_mem_append.mp h
    have hnext := Writer.writeAll_keeps hfirst hk
    rw [walk]
    split
    next heq =>
      rw [heq] at hnext
      exact ih hrest _ hnext
    next heq => rwa [heq] at hnext

/-- What each write keeps, a run keeps. -/
theorem execute_keeps (h : ∀ e ∈ g.output o options s, ∀ k, P k → P (w.write e k).2) (hk : P k) :
    P (g.execute o options w s k).sink := by
  unfold execute
  dsimp only
  split
  next => exact hk
  next =>
    split
    next => exact hk
    next hrequired =>
      rw [output, if_pos (by simpa using hrequired)] at h
      exact walk_keeps h _ hk

/-- What each write keeps, runs keep one after another. -/
theorem executeAll_keeps {gs : List (Generator σ × σ)}
    (h : ∀ g ∈ gs, ∀ e ∈ g.1.output o options g.2, ∀ k, P k → P (w.write e k).2) (hk : P k) :
    P (executeAll o options w gs k).2 := by
  induction gs generalizing k with
  | nil => exact hk
  | cons g gs ih =>
    obtain ⟨hg, hgs⟩ := List.forall_mem_cons.mp h
    have hnext := execute_keeps hg hk
    rw [executeAll]
    split
    next => exact hnext
    next => exact ih hgs hnext

end Generator

namespace Naming

/-- The directory of a version is a plain path, whatever the version. -/
theorem isPlain_versionDirectory (version : String) : Path.IsPlain (versionDirectory version) := by
  have hchars : (versionDirectory version).toList =
      'v' :: version.toList.map fun c => if c = '.' then '_' else c := by
    rw [versionDirectory, String.toList_append, Text.replaceChar, String.toList_ofList, String.toList_ofList,
      List.singleton_append]
  refine Path.isPlain_of_notMem ?_ ?_
  · rw [hchars]
    exact nofun
  · rw [hchars, List.mem_cons, List.mem_map]
    rintro (hletter | ⟨c, -, hc⟩)
    · exact absurd hletter (by decide)
    · split at hc
      next => exact absurd hc (by decide)
      next hdot => exact hdot hc

/-- A name is a plain path in snake case. -/
theorem isPlain_snake {name : String} (h : Grammar.isName name = true) : Path.IsPlain (snake name) := by
  have hnone {c : Char} (hc : Grammar.isNameChar c = false) : c ∉ name.toList := fun hmem => by
    rw [Grammar.isNameChar_of_mem h c hmem] at hc
    cases hc
  rw [snake_eq_self h]
  exact Path.isPlain_of_notMem (fun hhead => hnone (by decide) (List.mem_of_mem_head? hhead)) (hnone (by decide))

end Naming

/-- The paths that a backend emits lead down, if ontology and packages have names. -/
theorem Backend.leadsDown_of_mem_output {b : Backend} {o : Ontology} {options : GenerationOptions} {e : Emission}
    (hname : Grammar.isName o.name = true) (hpackages : ∀ p ∈ o.packages, Grammar.isName p.name = true)
    (he : e ∈ b.generator.output o options .empty) : Path.LeadsDown e.path := by
  obtain ⟨hdirectory, hfile⟩ := hasFile_of_mem_output he
  rw [Emission.path, hdirectory]
  exact (hfile.isEntry hpackages).leadsDown_join
    ((Naming.isPlain_snake hname).join (Naming.isPlain_versionDirectory o.version))

/-- Emissions whose paths lead down are written below the root one after another. -/
theorem FileTree.OnlyBelow.write {root : String} {t u : FileTree} {e : Emission} (he : Path.LeadsDown e.path)
    (h : t.OnlyBelow root u) : t.OnlyBelow root ((Writer.files root).write e u).2 :=
  h.trans (Writer.onlyBelow_write he root u)

namespace Schema

variable {s : Schema} {o : Ontology}

/-- Whatever the version of a valid schema, every path that a backend emits for it is relative and has names only as
components. So wherever the root of the output is, a run of all backends changes nothing but what is below it, and
directories on the way to it that were not there; nor do any of these emissions, written in any order. -/
theorem emissions_stay_below_root (hs : s.problems = []) (h : s.build = .ok o) (options : GenerationOptions) :
    (∀ b : Backend, ∀ e ∈ b.generator.output o options .empty, Path.LeadsDown e.path) ∧
      ∀ (root : String) (t : FileTree), t.OnlyBelow root
          (Generator.executeAll o options (Writer.files root) (Backend.all.map Backend.fresh) t).2 ∧
        ∀ es, (∀ e ∈ es, ∃ b : Backend, e ∈ b.generator.output o options .empty) →
          t.OnlyBelow root ((Writer.files root).writeAll es t).2 := by
  have hname : Grammar.isName o.name = true :=
    (name_and_version_of_build h).1 ▸ isName_name_of_problems_eq_nil hs
  have hdown (b : Backend) (e : Emission) (he : e ∈ b.generator.output o options .empty) : Path.LeadsDown e.path :=
    Backend.leadsDown_of_mem_output hname (isName_of_build hs h) he
  refine ⟨hdown, fun root t => ⟨?_, fun es hes => ?_⟩⟩
  · refine Generator.executeAll_keeps (List.forall_mem_map.mpr fun b _ e he u hu => ?_) (.refl t)
    exact hu.write (hdown b e he)
  · refine Writer.writeAll_keeps (fun e he u hu => ?_) (.refl t)
    obtain ⟨b, hb⟩ := hes e he
    exact hu.write (hdown b e hb)

/-- A version that would lead up and away becomes directories below that of the ontology. -/
theorem quay_stays_below_root : (quay "../../etc/./x").problems = [] ∧ ∃ o, (quay "../../etc/./x").build = .ok o ∧
    Path.components (CodeModules.directory o) =
      [.normal "quay", .normal "v__", .normal "__", .normal "etc", .normal "_", .normal "x"] ∧
    (∀ b : Backend, ∀ e ∈ b.generator.output o default .empty, Path.LeadsDown e.path) ∧
    (FileTree.empty ["home"]).OnlyBelow "out" (Generator.executeAll o default (Writer.files "out")
      (Backend.all.map Backend.fresh) (.empty ["home"])).2 := by
  have hs : (quay "../../etc/./x").problems = [] := by decide +kernel
  have hbuild : (quay "../../etc/./x").build.map (fun _ => ()) = .ok () := by cbv
  obtain ⟨o, ho, -⟩ := Declaration.map_eq_ok.mp hbuild
  obtain ⟨hname, hversion⟩ := name_and_version_of_build ho
  obtain ⟨hdown, hbelow⟩ := emissions_stay_below_root hs ho default
  refine ⟨hs, o, ho, ?_, hdown, (hbelow "out" (.empty ["home"])).1⟩
  rw [CodeModules.directory, hname, hversion]
  decide +kernel

end Schema

end OntologyCompiler
