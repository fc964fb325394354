import OntologyCompiler.Proofs.Declarations.Bodies

/-!
# The first fault of a schema

A schema is built exactly if its definitions can be read one after another. Otherwise the build stops at the first
definition that spoils this, and no later one is looked at. Each reader fails within what it reads: the entity of
its failure is the one that it was given or a part of it, and from the parts of an entry up to a whole definition
this is kept.
-/

namespace OntologyCompiler

/-- The failure is a structural fault of an entity or of something in it, which is named behind a dot. -/
def CompileError.Within (entity : String) (e : CompileError) : Prop :=
  ∃ named fault, e = .invalidStructure named fault ∧ (named = entity ∨ ∃ part, named = entity ++ "." ++ part)

namespace Declaration

/-- A sequence of readings fails where the first of them fails. -/
theorem bind_eq_error {α β : Type} {x : Declared α} {f : α → Declared β} {e : CompileError} :
    x >>= f = .error e ↔ x = .error e ∨ ∃ a, x = .ok a ∧ f a = .error e := by
  cases x <;> simp [bind, Except.bind]

/-- A transformed reading fails when the reading does. -/
theorem map_eq_error {α β : Type} {x : Declared α} {f : α → β} {e : CompileError} :
    x.map f = .error e ↔ x = .error e := by
  cases x <;> simp [Except.map]

/-- If the reading fails, it does so within an entity. -/
def FailsWithin {α : Type} (entity : String) (x : Declared α) : Prop := ∀ e, x = .error e → e.Within entity

namespace FailsWithin

variable {α β : Type} {entity part : String} {x : Declared α}

/-- A success is no failure. -/
theorem ok (a : α) : FailsWithin entity (.ok a : Declared α) := by
  intro e h
  cases h

/-- A fault of an entity is within it. -/
theorem fail (fault : StructureFault) : FailsWithin entity (Declaration.fail entity fault : Declared α) := by
  intro e h
  cases h
  exact ⟨entity, fault, rfl, .inl rfl⟩

/-- What is within a part of an entity is within the entity. -/
theorem of_part (h : FailsWithin (entity ++ "." ++ part) x) : FailsWithin entity x := by
  intro e he
  obtain ⟨named, fault, rfl, rfl | ⟨inner, rfl⟩⟩ := h e he
  · exact ⟨_, fault, rfl, .inr ⟨part, rfl⟩⟩
  · exact ⟨_, fault, rfl, .inr ⟨part ++ "." ++ inner, by simp only [String.append_assoc]⟩⟩

/-- A sequence of readings fails within an entity if each of them does. -/
theorem bind {f : α → Declared β} (hx : FailsWithin entity x) (hf : ∀ a, FailsWithin entity (f a)) :
    FailsWithin entity (x >>= f) := by
  intro e h
  rcases bind_eq_error.mp h with hfirst | ⟨a, -, hrest⟩
  · exact hx e hfirst
  · exact hf a e hrest

/-- A transformed reading fails like the reading. -/
theorem map {f : α → β} (hx : FailsWithin entity x) : FailsWithin entity (x.map f) :=
  fun e h => hx e (map_eq_error.mp h)

/-- A reading behind a check fails within an entity if the fault and the reading do. -/
theorem guard {c : Prop} [Decidable c] {f : α → Declared β} {fault : Declared α} {y : Declared β}
    (hfault : FailsWithin entity fault) (hf : ∀ a, FailsWithin entity (f a)) (hy : FailsWithin entity y) :
    FailsWithin entity (if c then fault >>= f else y) := by
  split
  · exact hfault.bind hf
  · exact hy

end FailsWithin

variable {owner entity : String}

/-- A list field fails within its owner. -/
theorem failsWithin_listField {body : List (String × Json)} {key : String} :
    FailsWithin owner (listField owner body key) := by
  unfold listField
  split
  · exact .ok []
  · exact .ok []
  · exact .ok _
  · exact .fail _

/-- An entry that should be a tuple fails within its owner. -/
theorem failsWithin_tuple {part : SchemaPart} {least most : ℕ} {entry : Json} :
    FailsWithin owner (tuple owner part least most entry) := by
  unfold tuple
  split
  · split
    · exact .fail _
    · exact .ok _
  · exact .fail _

/-- A field that should be a text fails within its owner. -/
theorem failsWithin_textAt {part : SchemaPart} {fields : List Json} {position : ℕ} :
    FailsWithin owner (textAt owner part fields position) := by
  unfold textAt
  split
  · exact .ok _
  · exact .fail _

/-- A property entry fails within its owner, from its name on within the property. -/
theorem failsWithin_readProperty {docStrings : List (String × Json)} {entry : Json} :
    FailsWithin owner (readProperty owner docStrings entry) := by
  refine failsWithin_tuple.bind fun fields => failsWithin_textAt.bind fun name => ?_
  have hrest {α : Type} {x : Declared α} (hx : FailsWithin (owner ++ "." ++ name) x) : FailsWithin owner x := hx.of_part
  refine hrest (.guard (.fail _) (fun _ => ?_) ?_)
  all_goals
    refine failsWithin_textAt.bind fun type => failsWithin_textAt.bind fun encoding => ?_
    split
    · exact .fail _
    · exact .ok _

/-- Property entries fail within their owner. -/
theorem failsWithin_readProperties {docStrings : List (String × Json)} {seen : List String} {entries : List Json} :
    FailsWithin owner (readProperties owner docStrings seen entries) := by
  induction entries generalizing seen with
  | nil => exact .ok []
  | cons entry rest ih =>
    refine failsWithin_readProperty.bind fun p => ?_
    exact .guard (.of_part (.fail _)) (fun _ => ih.bind fun _ => .ok _) (ih.bind fun _ => .ok _)

/-- A constraint entry fails within its owner. -/
theorem failsWithin_readConstraint {entry : Json} : FailsWithin owner (readConstraint owner entry) :=
  failsWithin_tuple.bind fun _ => failsWithin_textAt.bind fun _ => failsWithin_textAt.bind fun _ => .ok _

/-- A decoding entry fails within its owner. -/
theorem failsWithin_readDecoding {entry : Json} : FailsWithin owner (readDecoding owner entry) := by
  refine failsWithin_tuple.bind fun fields => ?_
  have hrest (overrideType : Option ValueType) : FailsWithin owner (do
      let property ← textAt owner .decodingProperty fields 0
      let rule ← textAt owner .decodingRule fields 1
      pure (⟨property, rule, overrideType⟩ : Decoding)) :=
    failsWithin_textAt.bind fun _ => failsWithin_textAt.bind fun _ => .ok _
  dsimp only
  split
  · exact hrest none
  · exact hrest none
  · exact failsWithin_textAt.bind fun type => hrest (some (.parse type))

/-- Entries fail within their owner if each of them does. -/
theorem failsWithin_readEach {α : Type} {read : Json → Declared α} {entries : List Json}
    (h : ∀ entry, FailsWithin owner (read entry)) : FailsWithin owner (readEach read entries) := by
  induction entries with
  | nil => exact .ok []
  | cons entry rest ih => exact (h entry).bind fun _ => ih.bind fun _ => .ok _

/-- The body of a class fails within the class. -/
theorem failsWithin_readClass {name : String} {body : List (String × Json)} :
    FailsWithin entity (readClass name entity body) := by
  refine failsWithin_listField.bind fun _ => failsWithin_readProperties.bind fun _ => ?_
  refine failsWithin_listField.bind fun _ => (failsWithin_readEach fun _ => failsWithin_readConstraint).bind fun _ => ?_
  refine failsWithin_listField.bind fun _ => (failsWithin_readEach fun _ => failsWithin_readDecoding).bind fun _ => ?_
  exact .ok _

/-- A member fails within its owner. -/
theorem failsWithin_readMember {entry : Json} : FailsWithin owner (readMember owner entry) := by
  unfold readMember
  split
  · exact .ok _
  · exact failsWithin_tuple.bind fun _ => failsWithin_textAt.bind fun _ => .ok _
  · exact .fail _

/-- Members fail within their owner. -/
theorem failsWithin_readMembers {seen : List String} {entries : List Json} :
    FailsWithin owner (readMembers owner seen entries) := by
  induction entries generalizing seen with
  | nil => exact .ok []
  | cons entry rest ih =>
    refine failsWithin_readMember.bind fun m => ?_
    exact .guard (.of_part (.fail _)) (fun _ => ih.bind fun _ => .ok _) (ih.bind fun _ => .ok _)

/-- The body of an enumeration fails within the enumeration. -/
theorem failsWithin_readEnum {name : String} {body : List (String × Json)} :
    FailsWithin entity (readEnum name entity body) :=
  failsWithin_listField.bind fun _ => failsWithin_readMembers.bind fun _ => .ok _

/-- A definition fails within the type of its qualified name. -/
theorem failsWithin_readType {package : String} {seen : List String} {d : Definition} :
    FailsWithin (package ++ "." ++ d.name) (readType package seen d) := by
  unfold readType
  refine .guard (.fail _) (fun _ => ?_) ?_
  all_goals
    split
    · split
      · exact failsWithin_readClass.map
      · exact failsWithin_readEnum.map
    · exact .fail _

/-- Items are read in order, each with the keys of those before it. -/
structure ReadsInOrder {ε α : Type} (go : List String → List ε → Declared (List α))
    (read : List String → ε → Declared α) (keys : ε → List String) : Prop where
  nil : ∀ seen, go seen [] = .ok []
  cons : ∀ seen item rest, go seen (item :: rest) =
    read seen item >>= fun a => go (keys item ++ seen) rest >>= fun as => pure (a :: as)

/-- The types of a package are read in order. -/
theorem readsInOrder_readTypes (package : String) :
    ReadsInOrder (readTypes package) (readType package) fun d => [package ++ "." ++ d.name] where
  nil := fun _ => rfl
  cons := fun _ _ _ => rfl

/-- Packages are read in order. -/
theorem readsInOrder_readPackages : ReadsInOrder readPackages
    (fun seen p => (readTypes p.name seen p.definitions).map fun types => ⟨p.name, p.doc.getD "", types⟩)
    qualifiedNames where
  nil := fun _ => rfl
  cons := by
    intro seen p rest
    rw [readPackages]
    cases readTypes p.name seen p.definitions <;> rfl

/-- Reading in order fails at an item with the keys of those before it, which are read. -/
theorem ReadsInOrder.exists_of_error {ε α : Type} {go : List String → List ε → Declared (List α)}
    {read : List String → ε → Declared α} {keys : ε → List String} (h : ReadsInOrder go read keys)
    {seen : List String} {items : List ε} {e : CompileError} (hgo : go seen items = .error e) :
    ∃ before item after seen', items = before ++ item :: after ∧ (∃ as, go seen before = .ok as) ∧
      (∀ key, key ∈ seen' ↔ key ∈ before.flatMap keys ∨ key ∈ seen) ∧ read seen' item = .error e := by
  induction items generalizing seen with
  | nil =>
    rw [h.nil] at hgo
    cases hgo
  | cons item rest ih =>
    rw [h.cons, bind_eq_error] at hgo
    rcases hgo with hitem | ⟨a, ha, hgo⟩
    · exact ⟨[], item, rest, seen, rfl, ⟨[], h.nil seen⟩, by simp, hitem⟩
    · rcases bind_eq_error.mp hgo with hrest | ⟨as, -, hpure⟩
      · obtain ⟨before, failed, after, seen', rfl, ⟨as, has⟩, hseen, hfailed⟩ := ih hrest
        refine ⟨item :: before, failed, after, seen', rfl, ⟨a :: as, ?_⟩, fun key => ?_, hfailed⟩
        · rw [h.cons]
          exact bind_eq_ok.mpr ⟨a, ha, bind_eq_ok.mpr ⟨as, has, rfl⟩⟩
        · rw [hseen, List.flatMap_cons, List.mem_append, List.mem_append]
          tauto
      · cases hpure

end Declaration

namespace Schema

/-- A definition and the name of its package. -/
structure Entry where
  package : String
  definition : Definition

/-- The qualified name of the type that is defined. -/
def Entry.qualifiedName (e : Entry) : String := e.package ++ "." ++ e.definition.name

/-- The definitions of a package, classes first, each kind by name. -/
def Package.entries (p : Package) : List Entry := p.definitions.map (Entry.mk p.name)

/-- The definitions of all packages in the order in which they are read. -/
def entries (s : Schema) : List Entry := s.packages.flatMap Package.entries

/-- Definitions that can be read one after another: bodies have the shapes of their kinds, no property takes the
reserved name, and the qualified names differ. -/
structure Readable (es : List Entry) : Prop where
  shaped : ∀ e ∈ es, e.definition.WellShaped
  unreserved : ∀ e ∈ es, reservedProperty ∉ e.definition.propertyNames
  distinct : (es.map Entry.qualifiedName).Nodup

variable {es fs : List Entry}

/-- Definitions can be read after others if both can be read and share no qualified name. -/
theorem readable_append_iff : Readable (es ++ fs) ↔
    Readable es ∧ Readable fs ∧ ∀ f ∈ fs, f.qualifiedName ∉ es.map Entry.qualifiedName := by
  constructor
  · rintro ⟨hshaped, hunreserved, hdistinct⟩
    rw [List.forall_mem_append] at hshaped hunreserved
    rw [List.map_append, List.nodup_append] at hdistinct
    obtain ⟨hes, hfs, happart⟩ := hdistinct
    refine ⟨⟨hshaped.1, hunreserved.1, hes⟩, ⟨hshaped.2, hunreserved.2, hfs⟩, fun f hf hmem => ?_⟩
    exact happart _ hmem _ (List.mem_map_of_mem hf) rfl
  · rintro ⟨hes, hfs, happart⟩
    refine ⟨List.forall_mem_append.mpr ⟨hes.shaped, hfs.shaped⟩,
      List.forall_mem_append.mpr ⟨hes.unreserved, hfs.unreserved⟩, ?_⟩
    rw [List.map_append, List.nodup_append]
    refine ⟨hes.distinct, hfs.distinct, ?_⟩
    rintro name hname _ hmem rfl
    obtain ⟨f, hf, rfl⟩ := List.mem_map.mp hmem
    exact happart f hf hname

/-- One definition can be read if its body has its shape and no property takes the reserved name. -/
theorem readable_singleton_iff {e : Entry} :
    Readable [e] ↔ e.definition.WellShaped ∧ reservedProperty ∉ e.definition.propertyNames :=
  ⟨fun h => ⟨h.shaped e List.mem_cons_self, h.unreserved e List.mem_cons_self⟩,
    fun h => ⟨by simpa using h.1, by simpa using h.2, List.nodup_singleton _⟩⟩

/-- Definitions of a package are read after others if they can be read and have new qualified names. -/
theorem readTypes_ok_iff_readable {package : String} {seen : List String} {ds : List Definition} :
    (∃ ts, Declaration.readTypes package seen ds = .ok ts) ↔
      Readable (ds.map (Entry.mk package)) ∧ ∀ d ∈ ds, package ++ "." ++ d.name ∉ seen := by
  have hnames : (ds.map (Entry.mk package)).map Entry.qualifiedName = ds.map fun d => package ++ "." ++ d.name := by
    rw [List.map_map]
    rfl
  rw [Declaration.readTypes_ok_iff, ← hnames]
  constructor
  · rintro ⟨hread, hnew, hdistinct⟩
    exact ⟨⟨List.forall_mem_map.mpr fun d hd => (hread d hd).1, List.forall_mem_map.mpr fun d hd => (hread d hd).2,
      hdistinct⟩, hnew⟩
  · rintro ⟨hread, hnew⟩
    exact ⟨fun d hd => ⟨hread.shaped _ (List.mem_map_of_mem hd), hread.unreserved _ (List.mem_map_of_mem hd)⟩, hnew,
      hread.distinct⟩

/-- The qualified names of the definitions of packages. -/
theorem map_qualifiedName_entries (ps : List Package) :
    (ps.flatMap Package.entries).map Entry.qualifiedName = ps.flatMap Declaration.qualifiedNames := by
  simp only [List.map_flatMap, Package.entries, List.map_map]
  rfl

/-- Packages are read exactly if their definitions can be. -/
theorem readPackages_ok_iff_readable {ps : List Package} :
    (∃ qs, Declaration.readPackages [] ps = .ok qs) ↔ Readable (ps.flatMap Package.entries) := by
  have hentries (P : Definition → Prop) : (∀ e ∈ ps.flatMap Package.entries, P e.definition) ↔
      ∀ p ∈ ps, ∀ d ∈ p.definitions, P d := by
    simp only [List.forall_mem_flatMap, Package.entries, List.forall_mem_map]
  rw [Declaration.readPackages_ok_iff, ← map_qualifiedName_entries]
  constructor
  · rintro ⟨hread, -, hdistinct⟩
    exact ⟨(hentries _).mpr fun p hp d hd => (hread p hp d hd).1,
      (hentries (reservedProperty ∉ ·.propertyNames)).mpr fun p hp d hd => (hread p hp d hd).2, hdistinct⟩
  · rintro ⟨hshaped, hunreserved, hdistinct⟩
    exact ⟨fun p hp d hd => ⟨(hentries _).mp hshaped p hp d hd,
      (hentries (reservedProperty ∉ ·.propertyNames)).mp hunreserved p hp d hd⟩, fun _ _ => List.not_mem_nil, hdistinct⟩

/-- If the declarations are not read, the failure is within the first definition that cannot be read after those
before it. -/
theorem exists_fault_of_error {s : Schema} {e : CompileError} (h : s.declarations = .error e) :
    ∃ before d after, s.entries = before ++ d :: after ∧ Readable before ∧ ¬ Readable (before ++ [d]) ∧
      e.Within d.qualifiedName := by
  obtain ⟨ps, p, ps', seen, hps, hread, hseen, hp⟩ := Declaration.readsInOrder_readPackages.exists_of_error h
  obtain ⟨ds, d, ds', seen', hds, hread', hseen', hd⟩ :=
    (Declaration.readsInOrder_readTypes p.name).exists_of_error (Declaration.map_eq_error.mp hp)
  obtain ⟨hbefore, hnew⟩ := readTypes_ok_iff_readable.mp hread'
  let before := ps.flatMap Package.entries ++ ds.map (Entry.mk p.name)
  have hreadable : Readable before := by
    refine readable_append_iff.mpr ⟨readPackages_ok_iff_readable.mp hread, hbefore, List.forall_mem_map.mpr ?_⟩
    intro f hf hmem
    rw [map_qualifiedName_entries] at hmem
    exact hnew f hf ((hseen _).mpr (.inl hmem))
  refine ⟨before, ⟨p.name, d⟩, ds'.map (Entry.mk p.name) ++ ps'.flatMap Package.entries, ?_, hreadable, ?_,
    Declaration.failsWithin_readType e hd⟩
  · simp [entries, hps, before, Package.entries, hds]
  · intro hconcat
    obtain ⟨-, hone, happart⟩ := readable_append_iff.mp hconcat
    obtain ⟨hshaped, hfree⟩ := readable_singleton_iff.mp hone
    have hnames : p.name ++ "." ++ d.name ∉ seen' := by
      intro hmem
      refine happart ⟨p.name, d⟩ List.mem_cons_self ?_
      rw [List.map_append, List.mem_append, map_qualifiedName_entries, List.map_map]
      rcases (hseen' _).mp hmem with hmem | hmem
      · obtain ⟨f, hf, hname⟩ := List.mem_flatMap.mp hmem
        exact .inr (List.mem_map.mpr ⟨f, hf, (List.mem_singleton.mp hname).symm⟩)
      · exact .inl (((hseen _).mp hmem).resolve_right List.not_mem_nil)
    obtain ⟨t, ht⟩ := Declaration.readType_ok_iff.mpr ⟨hnames, hshaped, hfree⟩
    rw [ht] at hd
    cases hd

/-- A schema is built exactly if its definitions can be read one after another. Otherwise the build fails within
the first definition that cannot be read after those before it. -/
theorem build_or_first_fault (s : Schema) : ((∃ o, s.build = .ok o) ↔ Readable s.entries) ∧
    (¬ Readable s.entries → ∃ before d after, s.entries = before ++ d :: after ∧ Readable before ∧
      ¬ Readable (before ++ [d]) ∧ ∃ entity fault, s.build = .error (.invalidStructure entity fault) ∧
        (entity = d.qualifiedName ∨ ∃ part, entity = d.qualifiedName ++ "." ++ part)) := by
  have hbuilt : (∃ o, s.build = .ok o) ↔ Readable s.entries := by
    rw [entries, ← readPackages_ok_iff_readable]
    simp only [build_eq_ok_iff]
    exact ⟨fun ⟨_, ps, hps, _⟩ => ⟨ps, hps⟩, fun ⟨ps, hps⟩ => ⟨_, ps, hps, rfl⟩⟩
  refine ⟨hbuilt, fun hfaulty => ?_⟩
  cases hread : s.declarations with
  | ok ps => exact absurd (hbuilt.mp ⟨_, build_eq_ok_iff.mpr ⟨ps, hread, rfl⟩⟩) hfaulty
  | error e =>
    obtain ⟨before, d, after, hentries, hbefore, hd, entity, fault, rfl, hentity⟩ := exists_fault_of_error hread
    refine ⟨before, d, after, hentries, hbefore, hd, entity, fault, ?_, hentity⟩
    rw [build, hread]
    rfl

/-- Two packages; the second has a class with a property of the reserved name, and behind it an enumeration with a
member twice. -/
def lagoon : Schema :=
  ⟨"lagoon", "1", "", [
    ⟨"tide", none, some (.ofList [("wave", .object [])]), none⟩,
    ⟨"ebb", none, some (.ofList [("foam", .object [("properties", .list [
      .list [.text "age", .text "int", .text "0.1"], .list [.text "ext", .text "str", .text "0.1"]])])]),
      some (.ofList [("shell", .object [("members", .list [.text "cone", .text "cone"])])])⟩]⟩

/-- The build stops at the property, within the class that is the first definition that cannot be read. -/
theorem lagoon_first_fault : (¬ ∃ o, lagoon.build = .ok o) ∧
    lagoon.build = .error (.invalidStructure "ebb.foam.ext" (.reservedProperty "ext")) ∧
      ∃ before d after, lagoon.entries = before ++ d :: after ∧ Readable before ∧ ¬ Readable (before ++ [d]) ∧
        d.qualifiedName = "ebb.foam" := by
  have hbuild : lagoon.build = .error (.invalidStructure "ebb.foam.ext" (.reservedProperty "ext")) := rfl
  have hnames : lagoon.entries.map Entry.qualifiedName = ["tide.wave", "ebb.foam", "ebb.shell"] := rfl
  obtain ⟨hbuilt, hfault⟩ := build_or_first_fault lagoon
  have hnone : ¬ ∃ o, lagoon.build = .ok o := by simp [hbuild]
  obtain ⟨before, d, after, hentries, hbefore, hd, entity, fault, herror, hentity⟩ := hfault (mt hbuilt.mpr hnone)
  rw [hbuild] at herror
  cases herror
  refine ⟨hnone, hbuild, before, d, after, hentries, hbefore, hd, ?_⟩
  have hmem : d.qualifiedName ∈ lagoon.entries.map Entry.qualifiedName := by
    rw [hentries]
    exact List.mem_map_of_mem (List.mem_append_right _ List.mem_cons_self)
  rw [hnames] at hmem
  simp only [List.mem_cons, List.not_mem_nil, or_false] at hmem
  rcases hmem with hname | hname | hname
  · simp [hname, String.ext_iff] at hentity
  · exact hname
  · simp [hname, String.ext_iff] at hentity

end Schema

end OntologyCompiler
