import OntologyCompiler.Files.Tree
import OntologyCompiler.Proofs.Ordered

/-!
# Files written in any order

A file is written after its directory is made. Making directories again changes nothing, and a file that
stands where no directory does is not on the way to any directory. So files of one directory with different
names can be written in any order, and the same tree comes out.
-/

namespace OntologyCompiler

namespace Text

variable {separator : Char} {a b : List Char}

/-- The pieces of a text on both sides of a separator. -/
theorem pieces_append : pieces separator (a ++ separator :: b) = pieces separator a ++ pieces separator b := by
  induction a with
  | nil => simp [pieces]
  | cons c a ih =>
    rw [List.cons_append, pieces, pieces]
    split
    · rw [ih, List.cons_append]
    · rw [ih]
      cases hpieces : pieces separator a with
      | nil => exact absurd hpieces (pieces_ne_nil separator a)
      | cons p ps => rfl

/-- A text without a separator is one piece. -/
theorem pieces_of_notMem (h : separator ∉ a) : pieces separator a = [a] := by
  induction a with
  | nil => rfl
  | cons c a ih =>
    obtain ⟨hc, ha⟩ := not_or.mp (mt List.mem_cons.mpr h)
    rw [pieces, if_neg (Ne.symm hc), ih ha]

/-- A piece has characters of the text only, and no separator. -/
theorem mem_of_mem_pieces {piece : List Char} (h : piece ∈ pieces separator a) :
    ∀ c ∈ piece, c ∈ a ∧ c ≠ separator := by
  induction a generalizing piece with
  | nil =>
    obtain rfl := List.mem_singleton.mp h
    exact fun c hc => absurd hc List.not_mem_nil
  | cons d a ih =>
    have hlater {p : List Char} (hp : p ∈ pieces separator a) : ∀ c ∈ p, c ∈ d :: a ∧ c ≠ separator :=
      fun c hc => (ih hp c hc).imp_left (List.mem_cons_of_mem d)
    rw [pieces] at h
    split at h
    next =>
      rcases List.mem_cons.mp h with rfl | h
      · exact fun c hc => absurd hc List.not_mem_nil
      · exact hlater h
    next hd =>
      split at h
      next hpieces => exact absurd hpieces (pieces_ne_nil separator a)
      next p ps hpieces =>
        rw [hpieces] at hlater
        rcases List.mem_cons.mp h with rfl | h
        · exact List.forall_mem_cons.mpr ⟨⟨List.mem_cons_self, hd⟩, hlater List.mem_cons_self⟩
        · exact hlater (List.mem_cons_of_mem _ h)

end Text

/-- The pieces of a joined path end with those of the second part. -/
theorem Path.exists_pieces_join {base path : String} (h : path.toList.head? ≠ some '/') :
    ∃ before, Text.pieces '/' (join base path).toList = before ++ Text.pieces '/' path.toList := by
  unfold join
  rw [if_neg h]
  split
  next => exact ⟨[], rfl⟩
  next hfilled =>
    split
    next hslash =>
      obtain ⟨before, hbefore⟩ := List.getLast?_eq_some_iff.mp hslash
      refine ⟨Text.pieces '/' before, ?_⟩
      rw [String.toList_append, hbefore, List.append_assoc, List.singleton_append, Text.pieces_append]
    next =>
      refine ⟨Text.pieces '/' base.toList, ?_⟩
      rw [String.toList_append, String.toList_append]
      exact Text.pieces_append

/-- The name of an entry of a directory: it has no slash and does not lead elsewhere. -/
structure Path.IsEntry (name : String) : Prop where
  slash : '/' ∉ name.toList
  ne_empty : name ≠ ""
  ne_dot : name ≠ "."
  ne_dots : name ≠ ".."

/-- The pieces of the path of an entry end with its name. -/
theorem Path.IsEntry.exists_pieces {name : String} (h : IsEntry name) (base : String) :
    ∃ before, Text.pieces '/' (join base name).toList = before ++ [name.toList] := by
  have hhead : name.toList.head? ≠ some '/' := fun heq => h.slash (List.mem_of_mem_head? heq)
  rw [← Text.pieces_of_notMem h.slash]
  exact exists_pieces_join hhead

/-- The components of a path are those of its pieces that are not empty, behind a mark of its start. -/
theorem Path.exists_components (path : String) : ∃ start, components path = start ++
    ((((Text.pieces '/' path.toList).map fun piece => (piece.isEmpty, componentOf piece)).filter
      fun p => !p.1).map Prod.snd).filter fun c => c ≠ .current := by
  unfold components
  dsimp only
  split
  next => exact ⟨[.root], rfl⟩
  next =>
    split
    next => exact ⟨[.current], rfl⟩
    next => exact ⟨[], rfl⟩

/-- The last component of the path of an entry is its name. -/
theorem Path.IsEntry.fileName?_join {base name : String} (h : IsEntry name) :
    fileName? (join base name) = some name := by
  obtain ⟨before, hpieces⟩ := h.exists_pieces base
  have hempty : name.toList.isEmpty = false := by
    simpa using h.ne_empty
  have hcomponent : componentOf name.toList = .normal name := by
    have hdot : name.toList ≠ ['.'] := fun heq => h.ne_dot (String.toList_injective heq)
    have hdots : name.toList ≠ ['.', '.'] := fun heq => h.ne_dots (String.toList_injective heq)
    rw [componentOf, if_neg hdot, if_neg hdots, String.ofList_toList]
  obtain ⟨start, hcomponents⟩ := exists_components (join base name)
  rw [hpieces, List.map_append, List.filter_append, List.map_append, List.filter_append,
    ← List.append_assoc] at hcomponents
  have hlast : (components (join base name)).getLast? = some (.normal name) := by
    rw [hcomponents]
    simp [hempty, hcomponent]
  rw [fileName?, hlast]

namespace FileTree

variable {t t' u : FileTree} {l m location : List String} {node : FileNode} {path : String}

/-- What stands at a location after a node has been put somewhere. -/
theorem node?_put : (t.put l node).node? m = if m = [] then some .directory
    else if m = l then some node else t.node? m := by
  unfold node? put
  split
  · rfl
  · exact OrderedMap.get?_insert

/-- Another tree has the same directories and the same working directory. -/
structure SameDirectories (t u : FileTree) : Prop where
  working : u.workingDirectory = t.workingDirectory
  directory : ∀ l, u.isDirectoryAt l = t.isDirectoryAt l

/-- A file that is put where no directory stands does not change the directories. -/
theorem sameDirectories_put (h : t.isDirectoryAt l = false) (contents : FileContents) :
    SameDirectories t (t.put l (.file contents)) where
  working := rfl
  directory := by
    intro m
    unfold isDirectoryAt at h ⊢
    rw [node?_put]
    by_cases hroot : m = []
    · simp [hroot, node?]
    · by_cases hsame : m = l
      · subst hsame
        rw [if_neg hroot, if_pos rfl, h]
        rfl
      · rw [if_neg hroot, if_neg hsame]

/-- Another tree has at least the directories, and the same working directory. -/
structure HasDirectories (t u : FileTree) : Prop where
  working : u.workingDirectory = t.workingDirectory
  directory : ∀ l, t.isDirectoryAt l = true → u.isDirectoryAt l = true

/-- The same directories are at least the directories. -/
theorem SameDirectories.hasDirectories (h : SameDirectories t u) : HasDirectories t u :=
  ⟨h.working, fun l hl => (h.directory l).trans hl⟩

/-- The same directories the other way round. -/
theorem SameDirectories.symm (h : SameDirectories t u) : SameDirectories u t :=
  ⟨h.working.symm, fun l => (h.directory l).symm⟩

/-- A tree has its own directories. -/
theorem HasDirectories.refl (t : FileTree) : HasDirectories t t := ⟨rfl, fun _ h => h⟩

/-- Directories that are kept twice are kept. -/
theorem HasDirectories.trans {v : FileTree} (h : HasDirectories t u) (h' : HasDirectories u v) : HasDirectories t v :=
  ⟨h'.working.trans h.working, fun l hl => h'.directory l (h.directory l hl)⟩

/-- A step that is possible stays possible with more directories. -/
theorem HasDirectories.step? (h : HasDirectories t u) {piece : String} (hstep : t.step? location piece = some l) :
    u.step? location piece = some l := by
  unfold FileTree.step? at hstep ⊢
  cases hlocation : t.isDirectoryAt location with
  | false =>
    rw [hlocation] at hstep
    cases hstep
  | true =>
    rw [hlocation] at hstep
    rwa [h.directory location hlocation]

/-- Steps that are possible stay possible with more directories. -/
theorem HasDirectories.follow? (h : HasDirectories t u) {pieces : List String}
    (hfollow : t.follow? location pieces = some l) : u.follow? location pieces = some l := by
  induction pieces generalizing location with
  | nil => exact hfollow
  | cons piece pieces ih =>
    obtain ⟨next, hstep, hrest⟩ := Option.bind_eq_some_iff.mp hfollow
    exact Option.bind_eq_some_iff.mpr ⟨next, h.step? hstep, ih hrest⟩

/-- The start of a path is the same in trees with the same working directory. -/
theorem pieces?_congr (h : u.workingDirectory = t.workingDirectory) : u.pieces? path = t.pieces? path := by
  unfold pieces?
  rw [h]

/-- With more directories a path to a directory leads to a directory. -/
theorem HasDirectories.isDirectory (h : HasDirectories t u) (hpath : t.isDirectory path = true) :
    u.isDirectory path = true := by
  have hat : (t.locate? path).bind t.node? = some .directory := of_decide_eq_true hpath
  obtain ⟨l, hlocate, hnode⟩ := Option.bind_eq_some_iff.mp hat
  obtain ⟨⟨start, pieces⟩, hpieces, hfollow⟩ := Option.bind_eq_some_iff.mp hlocate
  have hlocate' : u.locate? path = some l :=
    Option.bind_eq_some_iff.mpr ⟨(start, pieces), (pieces?_congr h.working).trans hpieces, h.follow? hfollow⟩
  have hnode' : u.node? l = some .directory := of_decide_eq_true (h.directory l (decide_eq_true hnode))
  exact decide_eq_true (Option.bind_eq_some_iff.mpr ⟨l, hlocate', hnode'⟩)

/-- Putting a directory adds one. -/
theorem hasDirectories_put_directory : HasDirectories t (t.put l .directory) where
  working := rfl
  directory := by
    intro m hm
    unfold isDirectoryAt at hm ⊢
    rw [node?_put]
    split
    · rfl
    · split
      · rfl
      · exact hm

/-- Making directories along pieces takes none away. -/
theorem hasDirectories_makeAlong {pieces : List String} : HasDirectories t (t.makeAlong location pieces).2 := by
  induction pieces generalizing t location with
  | nil => exact .refl t
  | cons piece pieces ih =>
    rw [makeAlong]
    split
    next => exact .refl t
    next next hstep =>
      split
      next => exact ih
      next => exact hasDirectories_put_directory.trans ih

/-- Directories are made along pieces from a directory. -/
theorem isDirectoryAt_of_makeAlong {pieces : List String} (h : t.makeAlong location pieces = (.ok (), t')) :
    t'.isDirectoryAt location = true := by
  cases pieces with
  | nil =>
    rw [makeAlong] at h
    obtain ⟨houtcome, rfl⟩ := Prod.mk.inj h
    by_contra hnot
    rw [if_neg hnot] at houtcome
    cases houtcome
  | cons piece pieces =>
    have hlocation : t.isDirectoryAt location = true := by
      by_contra hnot
      have hnone : t.step? location piece = none := by
        rw [step?, if_pos (by simpa using hnot)]
      rw [makeAlong, hnone] at h
      cases h
    have hkept := (@hasDirectories_makeAlong t location (piece :: pieces)).directory location hlocation
    rwa [h] at hkept

/-- Where directories have been made along pieces, making them again changes nothing. -/
theorem makeAlong_again {pieces : List String} (h : t.makeAlong location pieces = (.ok (), t'))
    (hu : HasDirectories t' u) : u.makeAlong location pieces = (.ok (), u) := by
  induction pieces generalizing t location with
  | nil => rw [makeAlong, if_pos (hu.directory location (isDirectoryAt_of_makeAlong h))]
  | cons piece pieces ih =>
    have hkept : HasDirectories t u := by
      have hmade := @hasDirectories_makeAlong t location (piece :: pieces)
      rw [h] at hmade
      exact hmade.trans hu
    rw [makeAlong] at h
    split at h
    next => cases h
    next next hstep =>
      have hnext : ∃ s : FileTree, s.makeAlong next pieces = (.ok (), t') := by
        split at h
        · exact ⟨_, h⟩
        · exact ⟨_, h⟩
      obtain ⟨s, hs⟩ := hnext
      have hdirectory := hu.directory next (isDirectoryAt_of_makeAlong hs)
      rw [makeAlong, hkept.step? hstep]
      simp only [of_decide_eq_true hdirectory]
      exact ih hs

/-- What making the directories of a path comes to, if it is possible: nothing for the empty path, else
directories along its pieces, and if it ends in a single dot it leads to a directory then. -/
theorem makeDirectories_cases (h : t.makeDirectories path = (.ok (), t')) : (path = "" ∧ t' = t) ∨
    ∃ start pieces, path ≠ "" ∧ t.pieces? path = some (start, pieces) ∧
      if (pieces.filter (· ≠ "")).getLast? = some "." then
        t.makeAlong start (withoutFinalDots pieces).dropLast = (.ok (), t') ∧ t'.isDirectory path = true
      else t.makeAlong start pieces = (.ok (), t') := by
  unfold makeDirectories at h
  split at h
  next hempty =>
    cases h
    exact Or.inl ⟨hempty, rfl⟩
  next hfilled =>
    split at h
    next => cases h
    next start pieces hpieces =>
      refine Or.inr ⟨start, pieces, hfilled, hpieces, ?_⟩
      split at h
      next hdot =>
        rw [if_pos hdot]
        split at h
        next => cases h
        next made hmade =>
          split at h
          next hdirectory =>
            cases h
            exact ⟨hmade, hdirectory⟩
          next => cases h
      next hdot => rwa [if_neg hdot]

/-- Making the directories of a path takes none away. -/
theorem hasDirectories_of_makeDirectories (h : t.makeDirectories path = (.ok (), t')) : HasDirectories t t' := by
  rcases makeDirectories_cases h with ⟨-, rfl⟩ | ⟨start, pieces, -, -, hmade⟩
  · exact .refl _
  · have halong {ps : List String} (hps : t.makeAlong start ps = (.ok (), t')) : HasDirectories t t' := by
      have hkept := @hasDirectories_makeAlong t start ps
      rwa [hps] at hkept
    split at hmade
    · exact halong hmade.1
    · exact halong hmade

/-- Where the directories of a path have been made, making them again changes nothing. -/
theorem makeDirectories_again (h : t.makeDirectories path = (.ok (), t')) (hu : HasDirectories t' u) :
    u.makeDirectories path = (.ok (), u) := by
  have hworking := hu.working.trans (hasDirectories_of_makeDirectories h).working
  rcases makeDirectories_cases h with ⟨rfl, -⟩ | ⟨start, pieces, hfilled, hpieces, hmade⟩
  · rfl
  · rw [makeDirectories, if_neg hfilled, pieces?_congr hworking, hpieces]
    dsimp only
    split at hmade
    next hdot =>
      rw [if_pos hdot, makeAlong_again hmade.1 hu]
      simp only [hu.isDirectory hmade.2, if_true]
    next hdot => rw [if_neg hdot, makeAlong_again hmade hu]

/-- A file has one target in trees with the same directories. -/
theorem SameDirectories.target? (h : SameDirectories t u) : u.target? path = t.target? path := by
  have hfollow (location : List String) (pieces : List String) :
      u.follow? location pieces = t.follow? location pieces := by
    apply Option.ext
    intro l
    exact ⟨h.symm.hasDirectories.follow?, h.hasDirectories.follow?⟩
  unfold FileTree.target?
  simp only [pieces?_congr h.working, hfollow, h.directory]

/-- The target of a file is where the pieces of its path lead, and no directory stands there. -/
theorem exists_follow?_of_target? (h : t.target? path = some l) :
    ∃ start pieces, t.pieces? path = some (start, pieces) ∧ t.follow? start pieces = some l ∧
      t.isDirectoryAt l = false := by
  obtain ⟨⟨start, pieces⟩, hpieces, hname⟩ := Option.bind_eq_some_iff.mp h
  dsimp only at hname
  split at hname
  next => cases hname
  next =>
    obtain ⟨location, hfollow, htarget⟩ := Option.bind_eq_some_iff.mp hname
    split at htarget
    next => cases htarget
    next hnot =>
      cases htarget
      exact ⟨start, pieces, hpieces, hfollow, by simpa using hnot⟩

/-- No directory stands at the target of a file. -/
theorem isDirectoryAt_target? (h : t.target? path = some l) : t.isDirectoryAt l = false := by
  obtain ⟨start, pieces, -, -, hdirectory⟩ := exists_follow?_of_target? h
  exact hdirectory

/-- The pieces of a path stand between its slashes. -/
theorem eq_map_of_pieces? {start pieces : List String} (h : t.pieces? path = some (start, pieces)) :
    pieces = (Text.pieces '/' path.toList).map String.ofList := by
  unfold pieces? at h
  dsimp only at h
  split at h
  next => cases h
  next => exact (Prod.mk.inj (Option.some.inj h)).2.symm

/-- Steps in two parts are made one part after the other. -/
theorem follow?_append (pieces rest : List String) : t.follow? location (pieces ++ rest) =
    (t.follow? location pieces).bind fun next => t.follow? next rest := by
  induction pieces generalizing location with
  | nil => rfl
  | cons piece pieces ih => simp only [List.cons_append, follow?, ih, Option.bind_assoc]

/-- A step to an entry of a directory leads below it. -/
theorem eq_append_of_step? {name : String} (hname : Path.IsEntry name) (h : t.step? location name = some l) :
    l = location ++ [name] := by
  have hplain : ¬(name = "" ∨ name = ".") := by
    rintro (heq | heq)
    · exact hname.ne_empty heq
    · exact hname.ne_dot heq
  unfold step? at h
  rw [if_neg hplain, if_neg hname.ne_dots] at h
  split at h
  next => cases h
  next =>
    split at h
    next => exact (Option.some.inj h).symm
    next => cases h

/-- The target of an entry ends with its name. -/
theorem getLast?_target? {base name : String} (hname : Path.IsEntry name)
    (h : t.target? (Path.join base name) = some l) : l.getLast? = some name := by
  obtain ⟨start, pieces, hpieces, hfollow, -⟩ := exists_follow?_of_target? h
  obtain ⟨before, hbefore⟩ := hname.exists_pieces base
  rw [eq_map_of_pieces? hpieces, hbefore, List.map_append, List.map_singleton, String.ofList_toList,
    follow?_append] at hfollow
  obtain ⟨directory, -, hlast⟩ := Option.bind_eq_some_iff.mp hfollow
  obtain ⟨next, hstep, hnext⟩ := Option.bind_eq_some_iff.mp hlast
  cases hnext
  rw [eq_append_of_step? hname hstep]
  exact List.getLast?_concat

/-- Nodes at different locations can be put in any order. -/
theorem put_comm {node' : FileNode} (h : l ≠ m) : (t.put l node).put m node' = (t.put m node').put l node := by
  simp only [put, OrderedMap.insert_comm h]

end FileTree

namespace Writer

variable {root : String} {t t' u : FileTree} {e f : Emission}

/-- A file is written below its directory, after that has been made. -/
theorem files_write_ok : (files root).write e t = (.ok (), t') ↔
    ∃ made l, t.makeDirectories (Path.join root e.directory) = (.ok (), made) ∧
      made.target? (Path.join (Path.join root e.directory) e.filename) = some l ∧
        t' = made.put l (.file (.text e.content)) := by
  simp only [files]
  rcases hmake : t.makeDirectories (Path.join root e.directory) with ⟨outcome, made⟩
  cases outcome with
  | error failure => simp
  | ok done =>
    dsimp only
    rw [FileTree.writeFile]
    cases htarget : made.target? (Path.join (Path.join root e.directory) e.filename) with
    | none =>
      refine iff_of_false (fun h => by cases h) fun h => ?_
      obtain ⟨made', l, hmade, hl, -⟩ := h
      obtain ⟨-, rfl⟩ := Prod.mk.inj hmade
      rw [htarget] at hl
      cases hl
    | some l =>
      refine ⟨fun h => ⟨made, l, rfl, htarget, (Prod.mk.inj h).2.symm⟩, fun h => ?_⟩
      obtain ⟨made', l', hmade, hl, hput⟩ := h
      obtain ⟨-, rfl⟩ := Prod.mk.inj hmade
      obtain rfl := Option.some.inj (htarget.symm.trans hl)
      rw [hput]

/-- Two writes that are accepted one after the other are accepted the other way round, with the same outcome. -/
def Swaps {ω : Type} (w : Writer ω) (e f : Emission) : Prop :=
  ∀ k k₁ k₂, w.write e k = (.ok (), k₁) → w.write f k₁ = (.ok (), k₂) →
    ∃ k', w.write f k = (.ok (), k') ∧ w.write e k' = (.ok (), k₂)

/-- The first of accepted emissions is accepted, and then the others are. -/
theorem writeAll_cons_ok {ω : Type} {w : Writer ω} {es : List Emission} {k k' : ω} :
    w.writeAll (e :: es) k = (.ok (), k') ↔
      ∃ between, w.write e k = (.ok (), between) ∧ w.writeAll es between = (.ok (), k') := by
  rw [writeAll]
  rcases w.write e k with ⟨outcome, between⟩
  cases outcome with
  | error failure => simp
  | ok done => simp

/-- Writes that can be swapped can be made in any order. -/
theorem writeAll_of_perm {ω : Type} {w : Writer ω} {es fs : List Emission} (hperm : es.Perm fs)
    (hswaps : es.Pairwise fun e f => w.Swaps e f ∧ w.Swaps f e) {k k' : ω}
    (h : w.writeAll es k = (.ok (), k')) : w.writeAll fs k = (.ok (), k') := by
  induction hperm generalizing k with
  | nil => exact h
  | cons e _ ih =>
    obtain ⟨between, he, hrest⟩ := writeAll_cons_ok.mp h
    exact writeAll_cons_ok.mpr ⟨between, he, ih (List.pairwise_cons.mp hswaps).2 hrest⟩
  | swap e f l =>
    obtain ⟨k₁, hf, hrest⟩ := writeAll_cons_ok.mp h
    obtain ⟨k₂, he, hl⟩ := writeAll_cons_ok.mp hrest
    have hswap := (List.pairwise_cons.mp hswaps).1 e List.mem_cons_self
    obtain ⟨k₃, he', hf'⟩ := hswap.1 k k₁ k₂ hf he
    exact writeAll_cons_ok.mpr ⟨k₃, he', writeAll_cons_ok.mpr ⟨k₂, hf', hl⟩⟩
  | trans hfirst _ ih ih' =>
    have hsymm {e f : Emission} (h : w.Swaps e f ∧ w.Swaps f e) : w.Swaps f e ∧ w.Swaps e f := h.symm
    exact ih' ((hfirst.pairwise_iff hsymm).mp hswaps) (ih hswaps h)

/-- Different entries of one directory can be written in any order. -/
theorem files_swaps (hdirectory : e.directory = f.directory) (he : Path.IsEntry e.filename)
    (hf : Path.IsEntry f.filename) (hne : e.filename ≠ f.filename) : (files root).Swaps e f := by
  intro t t₁ t₂ hfirst hsecond
  obtain ⟨made, l, hmade, hl, rfl⟩ := files_write_ok.mp hfirst
  have hsame := FileTree.sameDirectories_put (FileTree.isDirectoryAt_target? hl) (.text e.content)
  obtain ⟨made', m, hmade', hm, rfl⟩ := files_write_ok.mp hsecond
  -- The directory is there already, so the second write makes nothing.
  rw [← hdirectory, FileTree.makeDirectories_again hmade hsame.hasDirectories] at hmade'
  obtain ⟨-, rfl⟩ := Prod.mk.inj hmade'
  rw [hsame.target?] at hm
  have hother := FileTree.sameDirectories_put (FileTree.isDirectoryAt_target? hm) (.text f.content)
  have hlm : l ≠ m := by
    intro heq
    have hname := FileTree.getLast?_target? he hl
    rw [heq, FileTree.getLast?_target? hf hm] at hname
    exact hne (Option.some.inj hname).symm
  refine ⟨made.put m (.file (.text f.content)), ?_, ?_⟩
  · exact files_write_ok.mpr ⟨made, m, hdirectory ▸ hmade, hm, rfl⟩
  · refine files_write_ok.mpr ⟨_, l, FileTree.makeDirectories_again hmade hother.hasDirectories, ?_, ?_⟩
    · rw [hother.target?, hl]
    · exact FileTree.put_comm hlm

end Writer

end OntologyCompiler
