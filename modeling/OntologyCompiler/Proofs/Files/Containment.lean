import OntologyCompiler.Proofs.Files.Commutation

/-!
# Files below a root

A relative path whose components are all names leads down from wherever it starts, so a file that goes to such a path
below a root stays below the root. On the way there directories are made: those below the root, and those of the path
of the root itself that are not there yet. A single dot inside a path is no component but a step that stays, and two
dots are a step up, so what counts are the parts between slashes. Where parts lead can be read off them, whether or not
the directories on the way are there.
-/

namespace OntologyCompiler

namespace Path

variable {base path directory name : String} {c : Component} {piece : List Char} {ps : List String}
  {l working : List String}

/-- The parts of a path between slashes. -/
def parts (path : String) : List String := (Text.pieces '/' path.toList).map String.ofList

/-- Where one step leads. -/
def next (location : List String) (part : String) : List String :=
  if part = "" ∨ part = "." then location else if part = ".." then location.dropLast else location ++ [part]

/-- Where a path starts. -/
def start (working : List String) (path : String) : List String := if path.toList.head? = some '/' then [] else working

/-- Where a path leads. -/
def location (working : List String) (path : String) : List String := (parts path).foldl next (start working path)

/-- The locations on the way along a path, its start and its end among them. -/
def Passes (working : List String) (path : String) (l : List String) : Prop :=
  ∃ ps, ps <+: parts path ∧ l = ps.foldl next (start working path)

/-- A location below the one that a path leads to. -/
def IsBelow (working : List String) (path : String) (l : List String) : Prop :=
  ∃ names, names ≠ [] ∧ l = location working path ++ names

/-- The parts that lead on. -/
def steps (ps : List String) : List String := ps.filter fun part => part ≠ "" ∧ part ≠ "."

/-- A path with components, all of them names. -/
structure LeadsDown (path : String) : Prop where
  ne_nil : components path ≠ []
  names : ∀ c ∈ components path, ∃ name, c = .normal name

/-- Parts that never lead up lead down. -/
theorem foldl_next (h : ".." ∉ ps) (l : List String) : ps.foldl next l = l ++ steps ps := by
  induction ps generalizing l with
  | nil => simp [steps]
  | cons part ps ih =>
    obtain ⟨hpart, hps⟩ := not_or.mp (mt List.mem_cons.mpr h)
    rw [List.foldl_cons, ih hps, next, steps, steps, List.filter_cons]
    by_cases hstays : part = "" ∨ part = "."
    · rw [if_pos hstays, if_neg (by simpa [or_iff_not_imp_left] using hstays)]
    · rw [if_neg hstays, if_neg (Ne.symm hpart), if_pos (by simpa [not_or] using hstays), List.append_assoc,
        List.singleton_append]

/-- The start of a path, then its parts. -/
theorem passes_location (working : List String) (path : String) : Passes working path (location working path) :=
  ⟨parts path, List.prefix_rfl, rfl⟩

/-- The parts of a joined path are those of both, except for an empty one at the end of the first. -/
theorem exists_parts_join (base : String) (h : path.toList.head? ≠ some '/') : ∃ before,
    (parts base = before ∨ parts base = before ++ [""]) ∧ parts (join base path) = before ++ parts path := by
  unfold join parts
  rw [if_neg h]
  split
  next hempty =>
    refine ⟨[], .inr ?_, rfl⟩
    rw [List.isEmpty_iff.mp hempty]
    rfl
  next =>
    split
    next hslash =>
      obtain ⟨before, hbefore⟩ := List.getLast?_eq_some_iff.mp hslash
      refine ⟨(Text.pieces '/' before).map String.ofList, .inr ?_, ?_⟩
      · rw [hbefore, Text.pieces_append, List.map_append]
        rfl
      · rw [String.toList_append, hbefore, List.append_assoc, List.singleton_append, Text.pieces_append,
          List.map_append]
    next =>
      refine ⟨(Text.pieces '/' base.toList).map String.ofList, .inl rfl, ?_⟩
      have hmiddle : (base ++ ("/" ++ path)).toList = base.toList ++ '/' :: path.toList := by
        rw [String.toList_append, String.toList_append]
        rfl
      rw [hmiddle, Text.pieces_append, List.map_append]

/-- A path with a relative path behind it is absolute exactly if it is itself. -/
theorem head?_join_iff (h : path.toList.head? ≠ some '/') :
    (join base path).toList.head? = some '/' ↔ base.toList.head? = some '/' := by
  unfold join
  rw [if_neg h]
  split
  next hempty =>
    have hbase : base.toList.head? ≠ some '/' := by simp [List.isEmpty_iff.mp hempty]
    exact iff_of_false h hbase
  next hfilled =>
    have hhead (rest : String) : (base ++ rest).toList.head? = base.toList.head? := by
      rw [String.toList_append, List.head?_append_of_ne_nil]
      simpa using hfilled
    split <;> rw [hhead]

/-- A relative path does not change where the path before it starts. -/
theorem start_join (h : path.toList.head? ≠ some '/') : start working (join base path) = start working base := by
  simp only [start, head?_join_iff h]

/-- The parts that lead on along a joined path are those of both. -/
theorem steps_parts_join (h : path.toList.head? ≠ some '/') :
    steps (parts (join base path)) = steps (parts base) ++ steps (parts path) := by
  obtain ⟨before, hbefore, hparts⟩ := exists_parts_join base h
  rw [hparts, steps, List.filter_append]
  rcases hbefore with hbefore | hbefore
  · rw [hbefore, steps, steps]
  · simp [hbefore, steps]

/-- A relative path that never leads up leads down from where the path before it leads. -/
theorem location_join (h : path.toList.head? ≠ some '/') (hup : ".." ∉ parts path) :
    location working (join base path) = location working base ++ steps (parts path) := by
  obtain ⟨before, hbefore, hparts⟩ := exists_parts_join base h
  rw [location, location, start_join h, hparts, List.foldl_append, foldl_next hup]
  rcases hbefore with hbefore | hbefore
  · rw [hbefore]
  · rw [hbefore, List.foldl_append]
    simp [next]

example : location ["home"] (join "log/../out/" "./v1//x.py") = ["home", "out", "v1", "x.py"] := by decide +kernel

/-- On the way along a relative path that never leads up there are only locations below the path before it, and those on
the way along that. -/
theorem isBelow_or_passes_of_join (h : path.toList.head? ≠ some '/') (hup : ".." ∉ parts path)
    (hl : Passes working (join base path) l) : IsBelow working base l ∨ Passes working base l := by
  obtain ⟨ps, hps, rfl⟩ := hl
  obtain ⟨before, hbefore, hparts⟩ := exists_parts_join base h
  have hprefix : before <+: parts base := by
    rcases hbefore with hbefore | hbefore
    · exact hbefore ▸ List.prefix_rfl
    · exact hbefore ▸ List.prefix_append _ _
  have hend : before.foldl next (start working base) = location working base := by
    rcases hbefore with hbefore | hbefore
    · rw [location, hbefore]
    · rw [location, hbefore, List.foldl_append]
      simp [next]
  rw [start_join h]
  rw [hparts] at hps
  rcases List.prefix_or_prefix_of_prefix hps (List.prefix_append before _) with hfirst | ⟨rest, rfl⟩
  · exact .inr ⟨ps, hfirst.trans hprefix, rfl⟩
  · have hrest := (List.prefix_append_right_inj before).mp hps
    have hdown : ".." ∉ rest := fun hmem => hup (hrest.subset hmem)
    rw [List.foldl_append, hend, foldl_next hdown]
    by_cases hstays : steps rest = []
    · rw [hstays, List.append_nil]
      exact .inr (passes_location working base)
    · exact .inl ⟨steps rest, hstays, rfl⟩

section Components

/-- A part that is not empty and no single dot is a component. -/
theorem mem_components_of_mem_pieces (h : piece ∈ Text.pieces '/' path.toList) (hfilled : piece ≠ [])
    (hdot : piece ≠ ['.']) : componentOf piece ∈ components path := by
  obtain ⟨start, hcomponents⟩ := exists_components path
  have hkept : componentOf piece ≠ .current := by
    rw [componentOf, if_neg hdot]
    split
    next => decide
    next => exact fun h => by cases h
  rw [hcomponents]
  refine List.mem_append_right _ (List.mem_filter.mpr ⟨List.mem_map.mpr ⟨(false, componentOf piece), ?_, rfl⟩, ?_⟩)
  · refine List.mem_filter.mpr ⟨List.mem_map.mpr ⟨piece, h, ?_⟩, rfl⟩
    rw [List.isEmpty_eq_false_iff.mpr hfilled]
  · simpa using hkept

/-- A component is the root of an absolute path, or it comes from a part. -/
theorem exists_piece_of_mem_components (h : c ∈ components path) : c = .root ∧ path.toList.head? = some '/' ∨
    ∃ piece ∈ Text.pieces '/' path.toList, piece ≠ [] ∧ componentOf piece = c := by
  have hinner (hc : c ∈ ((((Text.pieces '/' path.toList).map fun piece => (piece.isEmpty, componentOf piece)).filter
      fun p => !p.1).map Prod.snd).filter fun c => c ≠ .current) :
      ∃ piece ∈ Text.pieces '/' path.toList, piece ≠ [] ∧ componentOf piece = c := by
    obtain ⟨marked, hmarked, rfl⟩ := List.mem_map.mp (List.mem_filter.mp hc).1
    obtain ⟨hmem, hfilled⟩ := List.mem_filter.mp hmarked
    obtain ⟨piece, hpiece, rfl⟩ := List.mem_map.mp hmem
    exact ⟨piece, hpiece, by simpa using hfilled, rfl⟩
  unfold components at h
  dsimp only at h
  split at h
  next hroot =>
    rcases List.mem_cons.mp h with rfl | hc
    · exact .inl ⟨rfl, hroot⟩
    · exact .inr (hinner hc)
  next =>
    split at h
    next hfirst =>
      rcases List.mem_cons.mp h with rfl | hc
      · obtain ⟨piece, rest, hpieces, heq, -⟩ := List.map_eq_cons_iff.mp hfirst
        obtain ⟨hempty, hcurrent⟩ := Prod.mk.inj heq
        exact .inr ⟨piece, hpieces ▸ List.mem_cons_self, by simpa using hempty, hcurrent⟩
      · exact .inr (hinner hc)
    next => exact .inr (hinner h)

/-- A path that leads down is relative. -/
theorem LeadsDown.head?_ne (h : LeadsDown path) : path.toList.head? ≠ some '/' := by
  intro hroot
  have hmem : Component.root ∈ components path := by
    unfold components
    dsimp only
    rw [if_pos hroot]
    exact List.mem_cons_self
  obtain ⟨name, heq⟩ := h.names .root hmem
  cases heq

/-- A path that leads down never leads up. -/
theorem LeadsDown.notMem_parts (h : LeadsDown path) : ".." ∉ parts path := by
  intro hmem
  obtain ⟨piece, hpiece, heq⟩ := List.mem_map.mp hmem
  obtain rfl : piece = ['.', '.'] := by
    rw [← String.toList_ofList (l := piece), heq]
    rfl
  obtain ⟨name, hname⟩ := h.names _ (mem_components_of_mem_pieces hpiece (by decide) (by decide))
  revert hname
  exact nofun

/-- A path that leads down leads on. -/
theorem LeadsDown.steps_ne_nil (h : LeadsDown path) : steps (parts path) ≠ [] := by
  obtain ⟨c, hc⟩ := List.exists_mem_of_ne_nil _ h.ne_nil
  obtain ⟨name, rfl⟩ := h.names c hc
  rcases exists_piece_of_mem_components hc with ⟨heq, -⟩ | ⟨piece, hpiece, hfilled, hcomponent⟩
  · cases heq
  · have hdot : piece ≠ ['.'] := by
      rintro rfl
      revert hcomponent
      exact nofun
    refine List.ne_nil_of_mem (a := String.ofList piece) (List.mem_filter.mpr ⟨List.mem_map.mpr ⟨piece, hpiece, rfl⟩, ?_⟩)
    have hempty : String.ofList piece ≠ "" := fun heq => hfilled (String.ofList_injective heq)
    have hcurrent : String.ofList piece ≠ "." := fun heq => hdot (String.ofList_injective heq)
    simp [hempty, hcurrent]

/-- Both parts of a joined path that leads down are relative. -/
theorem LeadsDown.head?_ne_of_join (h : LeadsDown (join base path)) :
    base.toList.head? ≠ some '/' ∧ path.toList.head? ≠ some '/' := by
  have hpath : path.toList.head? ≠ some '/' := by
    intro hroot
    have hjoin := h.head?_ne
    rw [join, if_pos hroot] at hjoin
    exact hjoin hroot
  exact ⟨fun hroot => h.head?_ne ((head?_join_iff hpath).mpr hroot), hpath⟩

/-- Neither part of a joined path that leads down leads up. -/
theorem LeadsDown.notMem_parts_of_join (h : LeadsDown (join base path)) : ".." ∉ parts base ∧ ".." ∉ parts path := by
  obtain ⟨before, hbefore, hparts⟩ := exists_parts_join base h.head?_ne_of_join.2
  have hup := h.notMem_parts
  rw [hparts, List.mem_append, not_or] at hup
  refine ⟨?_, hup.2⟩
  rcases hbefore with hbefore | hbefore
  · exact hbefore ▸ hup.1
  · simpa [hbefore] using hup.1

/-- A relative path without single or double dots. -/
structure IsPlain (path : String) : Prop where
  head?_ne : path.toList.head? ≠ some '/'
  ne_dots : ∀ part ∈ parts path, part ≠ "." ∧ part ≠ ".."

/-- A plain path leads down if it leads on. -/
theorem IsPlain.leadsDown (h : IsPlain path) (hsteps : steps (parts path) ≠ []) : LeadsDown path := by
  have hplain (piece : List Char) (hpiece : piece ∈ Text.pieces '/' path.toList) :
      piece ≠ ['.'] ∧ piece ≠ ['.', '.'] := by
    have hpart := h.ne_dots _ (List.mem_map_of_mem hpiece)
    exact ⟨fun heq => hpart.1 (by rw [heq]), fun heq => hpart.2 (by rw [heq])⟩
  constructor
  · obtain ⟨part, hpart⟩ := List.exists_mem_of_ne_nil _ hsteps
    obtain ⟨hmem, hleads⟩ := List.mem_filter.mp hpart
    obtain ⟨piece, hpiece, rfl⟩ := List.mem_map.mp hmem
    have hfilled : piece ≠ [] := by
      rintro rfl
      simp at hleads
    exact List.ne_nil_of_mem (mem_components_of_mem_pieces hpiece hfilled (hplain piece hpiece).1)
  · intro c hc
    rcases exists_piece_of_mem_components hc with ⟨-, hroot⟩ | ⟨piece, hpiece, -, rfl⟩
    · exact absurd hroot h.head?_ne
    · rw [componentOf, if_neg (hplain piece hpiece).1, if_neg (hplain piece hpiece).2]
      exact ⟨_, rfl⟩

/-- Plain paths can be joined. -/
theorem IsPlain.join (hbase : IsPlain base) (hpath : IsPlain path) : IsPlain (join base path) where
  head?_ne h := hbase.head?_ne ((head?_join_iff hpath.head?_ne).mp h)
  ne_dots := by
    obtain ⟨before, hbefore, hparts⟩ := exists_parts_join base hpath.head?_ne
    intro part hpart
    rw [hparts] at hpart
    rcases List.mem_append.mp hpart with hpart | hpart
    · refine hbase.ne_dots part ?_
      rcases hbefore with hbefore | hbefore
      · exact hbefore ▸ hpart
      · exact hbefore ▸ List.mem_append_left _ hpart
    · exact hpath.ne_dots part hpart

/-- A relative path without any dot is plain. -/
theorem isPlain_of_notMem (h : path.toList.head? ≠ some '/') (hdot : '.' ∉ path.toList) : IsPlain path where
  head?_ne := h
  ne_dots := by
    refine List.forall_mem_map.mpr fun piece hpiece => ?_
    have hnone : '.' ∉ (String.ofList piece).toList := by
      rw [String.toList_ofList]
      exact fun hmem => hdot (Text.mem_of_mem_pieces hpiece _ hmem).1
    constructor
    · intro heq
      exact hnone (by rw [heq]; decide)
    · intro heq
      exact hnone (by rw [heq]; decide)

/-- The name of an entry is one part. -/
theorem IsEntry.parts_eq (h : IsEntry name) : parts name = [name] := by
  rw [parts, Text.pieces_of_notMem h.slash, List.map_singleton, String.ofList_toList]

/-- The name of an entry is a plain path. -/
theorem IsEntry.isPlain (h : IsEntry name) : IsPlain name where
  head?_ne heq := h.slash (List.mem_of_mem_head? heq)
  ne_dots part hpart := by
    rw [h.parts_eq] at hpart
    exact List.mem_singleton.mp hpart ▸ ⟨h.ne_dot, h.ne_dots⟩

/-- An entry of a plain path leads down. -/
theorem IsEntry.leadsDown_join (h : IsEntry name) (hbase : IsPlain base) : LeadsDown (join base name) := by
  refine (hbase.join h.isPlain).leadsDown ?_
  rw [steps_parts_join h.isPlain.head?_ne, h.parts_eq]
  simp [steps, h.ne_empty, h.ne_dot]

end Components

end Path

namespace FileTree

variable {t u v : FileTree} {l m : List String} {path root piece : String} {pieces : List String}
  {free way free' way' : List String → Prop}

/-- A step that is possible leads where it leads. -/
theorem eq_next_of_step? (h : t.step? l piece = some m) : m = Path.next l piece := by
  unfold step? at h
  split at h
  next => cases h
  next =>
    unfold Path.next
    split at h
    next hstays =>
      rw [if_pos hstays]
      exact (Option.some.inj h).symm
    next hmoves =>
      rw [if_neg hmoves]
      split at h
      next hup =>
        rw [if_pos hup]
        exact (Option.some.inj h).symm
      next hdown =>
        rw [if_neg hdown]
        split at h
        next => exact (Option.some.inj h).symm
        next => cases h

/-- Steps that are possible lead where they lead. -/
theorem eq_foldl_of_follow? (h : t.follow? l pieces = some m) : m = pieces.foldl Path.next l := by
  induction pieces generalizing l with
  | nil => exact (Option.some.inj h).symm
  | cons piece pieces ih =>
    obtain ⟨next, hstep, hrest⟩ := Option.bind_eq_some_iff.mp h
    rw [ih hrest, eq_next_of_step? hstep]
    rfl

/-- The pieces of a path are its parts. -/
theorem eq_of_pieces? {start : List String} (h : t.pieces? path = some (start, pieces)) :
    start = Path.start t.workingDirectory path ∧ pieces = Path.parts path := by
  unfold pieces? at h
  dsimp only at h
  split at h
  next => cases h
  next =>
    obtain ⟨rfl, rfl⟩ := Prod.mk.inj (Option.some.inj h)
    exact ⟨rfl, rfl⟩

/-- The target of a file is where its path leads. -/
theorem eq_location_of_target? (h : t.target? path = some l) : l = Path.location t.workingDirectory path := by
  obtain ⟨start, pieces, hpieces, hfollow, -⟩ := exists_follow?_of_target? h
  obtain ⟨rfl, rfl⟩ := eq_of_pieces? hpieces
  exact eq_foldl_of_follow? hfollow

/-- Another tree differs only at free locations, and in directories on a way where nothing stood. -/
structure Confined (free way : List String → Prop) (t u : FileTree) : Prop where
  working : u.workingDirectory = t.workingDirectory
  changed : ∀ l, u.node? l ≠ t.node? l → free l ∨ way l ∧ t.node? l = none ∧ u.node? l = some .directory

namespace Confined

/-- A tree does not differ from itself. -/
theorem refl (t : FileTree) : Confined free way t t := ⟨rfl, fun _ h => absurd rfl h⟩

/-- Differences one after another are differences. -/
theorem trans (h : Confined free way t u) (h' : Confined free way u v) : Confined free way t v where
  working := h'.working.trans h.working
  changed l hl := by
    by_cases hfirst : u.node? l = t.node? l
    · have hsecond := h'.changed l (hfirst ▸ hl)
      rwa [hfirst] at hsecond
    · rcases h.changed l hfirst with hfree | ⟨hway, hnone, hmade⟩
      · exact .inl hfree
      · by_cases hsecond : v.node? l = u.node? l
        · exact .inr ⟨hway, hnone, hsecond.trans hmade⟩
        · -- What has been made on the way is there, so it is only changed again where all may be.
          rcases h'.changed l hsecond with hfree | ⟨-, hgone, -⟩
          · exact .inl hfree
          · rw [hmade] at hgone
            cases hgone

/-- More locations may be free or on the way. -/
theorem mono (h : Confined free way t u) (hfree : ∀ l, free l → free' l) (hway : ∀ l, way l → free' l ∨ way' l) :
    Confined free' way' t u where
  working := h.working
  changed l hl := by
    rcases h.changed l hl with hl | ⟨hl, hmade⟩
    · exact .inl (hfree l hl)
    · exact (hway l hl).imp_right fun hl => ⟨hl, hmade⟩

end Confined

/-- A node that is put at a free location changes nothing else. -/
theorem confined_put (h : free l) (node : FileNode) : Confined free way t (t.put l node) where
  working := rfl
  changed m hm := by
    rw [node?_put] at hm
    split at hm
    next hroot => exact absurd (by rw [hroot]; rfl) hm
    next =>
      split at hm
      next hsame => exact .inl (hsame ▸ h)
      next => exact absurd rfl hm

/-- A directory that is put where nothing stood on a way changes nothing else. -/
theorem confined_put_directory (hway : way l) (hnone : t.node? l = none) :
    Confined free way t (t.put l .directory) where
  working := rfl
  changed m hm := by
    have hroot : l ≠ [] := by
      rintro rfl
      cases hnone
    have hput : Confined (l = ·) (fun _ => False) t (t.put l .directory) := confined_put rfl .directory
    rcases hput.changed m hm with rfl | ⟨hno, -⟩
    · exact .inr ⟨hway, hnone, by rw [node?_put, if_neg hroot, if_pos rfl]⟩
    · exact hno.elim

/-- Making directories along pieces adds directories on the way along them only. -/
theorem confined_makeAlong (t : FileTree) (l : List String) (pieces : List String) :
    Confined free (fun m => ∃ ps, ps <+: pieces ∧ m = ps.foldl Path.next l) t (t.makeAlong l pieces).2 := by
  induction pieces generalizing t l with
  | nil => exact .refl t
  | cons piece pieces ih =>
    rw [makeAlong]
    split
    next => exact .refl t
    next next hstep =>
      obtain rfl := eq_next_of_step? hstep
      have hrest (s : FileTree) : Confined free (fun m => ∃ ps, ps <+: piece :: pieces ∧ m = ps.foldl Path.next l) s
          (s.makeAlong (Path.next l piece) pieces).2 := by
        refine (ih s _).mono (fun _ h => h) fun m hm => .inr ?_
        obtain ⟨ps, hps, rfl⟩ := hm
        exact ⟨piece :: ps, (List.prefix_cons_inj piece).mpr hps, rfl⟩
      split
      next => exact hrest t
      next hnone =>
        refine (confined_put_directory ⟨[piece], ?_, rfl⟩ hnone).trans (hrest _)
        exact (List.prefix_cons_inj piece).mpr List.nil_prefix

/-- The pieces that are left without those at the end are the first ones. -/
theorem prefix_of_withoutFinalDots (pieces : List String) : withoutFinalDots pieces <+: pieces := by
  have hsuffix := List.dropWhile_suffix (l := pieces.reverse) fun piece => decide (piece = "" ∨ piece = ".")
  have hreversed := List.reverse_prefix.mpr hsuffix
  rwa [List.reverse_reverse] at hreversed

/-- Making the directories of a path adds directories on the way along it only, whether it succeeds or not. -/
theorem confined_makeDirectories (t : FileTree) (path : String) :
    Confined free (Path.Passes t.workingDirectory path) t (t.makeDirectories path).2 := by
  unfold makeDirectories
  split
  next => exact .refl t
  next =>
    split
    next => exact .refl t
    next start pieces hpieces =>
      obtain ⟨rfl, rfl⟩ := eq_of_pieces? hpieces
      split
      next =>
        have hmade : Confined free (Path.Passes t.workingDirectory path) t
            (t.makeAlong (Path.start t.workingDirectory path) (withoutFinalDots (Path.parts path)).dropLast).2 := by
          refine (confined_makeAlong t _ _).mono (fun _ h => h) fun m hm => .inr ?_
          obtain ⟨ps, hps, rfl⟩ := hm
          exact ⟨ps, hps.trans ((List.dropLast_prefix _).trans (prefix_of_withoutFinalDots _)), rfl⟩
        split
        next heq => rwa [heq] at hmade
        next heq => rwa [heq] at hmade
      next => exact confined_makeAlong t _ _

/-- Another tree differs only below a root, and in directories on the way to the root where nothing stood. -/
def OnlyBelow (root : String) (t u : FileTree) : Prop :=
  Confined (Path.IsBelow t.workingDirectory root) (Path.Passes t.workingDirectory root) t u

/-- Writes below a root one after another are writes below it. -/
theorem OnlyBelow.trans (h : OnlyBelow root t u) (h' : OnlyBelow root u v) : OnlyBelow root t v := by
  unfold OnlyBelow at h h' ⊢
  rw [h.working] at h'
  exact Confined.trans h h'

end FileTree

namespace Writer

variable {root : String} {t : FileTree} {e : Emission}

/-- A file whose path leads down is written below the root, if it is written, and nothing else changes. -/
theorem onlyBelow_write (h : Path.LeadsDown e.path) (root : String) (t : FileTree) :
    t.OnlyBelow root ((files root).write e t).2 := by
  obtain ⟨hdirectory, hname⟩ := h.head?_ne_of_join
  obtain ⟨hdirectoryUp, hnameUp⟩ := h.notMem_parts_of_join
  have hmade : t.OnlyBelow root (t.makeDirectories (Path.join root e.directory)).2 :=
    (FileTree.confined_makeDirectories t _).mono (fun _ h => h) fun _ => Path.isBelow_or_passes_of_join hdirectory
      hdirectoryUp
  simp only [files]
  split
  next heq => rwa [heq] at hmade
  next made heq =>
    rw [heq] at hmade
    refine hmade.trans ?_
    cases hwrite : made.writeFile (Path.join (Path.join root e.directory) e.filename) (.text e.content) with
    | error failure => exact .refl made
    | ok written =>
      unfold FileTree.writeFile at hwrite
      split at hwrite
      next l htarget =>
        obtain rfl := Except.ok.inj hwrite
        refine FileTree.confined_put ⟨Path.steps (Path.parts e.path), h.steps_ne_nil, ?_⟩ _
        rw [FileTree.eq_location_of_target? htarget, Path.location_join hname hnameUp,
          Path.location_join hdirectory hdirectoryUp, Emission.path, Path.steps_parts_join hname, List.append_assoc]
      next => cases hwrite

end Writer

end OntologyCompiler
