import OntologyCompiler.Proofs.Inheritance.Overrides

/-!
# Base chains that loop

In an ontology that was read back, bases may lead anywhere: to the class itself, into a loop, or round a loop that the
class is part of. The walk along bases marks every class that it meets and goes on to classes that are not marked only,
so each round leaves fewer classes to meet and no walk goes on for ever. What it lists is a way along bases without
repetition, and every other such way from the class is a beginning of it. So the lineage of a class has every class
that the class reaches along bases, each once, and under a key a view has what one of them declares.

Nothing is assumed about the bases but that they are classes, so no chain of bases need have an end.
-/

namespace OntologyCompiler

/-- Where a walk along bases stands: the classes that are marked, those that are listed, and the class that is next. -/
structure BaseWalk where
  seen : List ClassId
  listed : List ClassId
  next : Option ClassId

namespace BaseWalk

/-- A walk has ended where no class is next, or one that is marked. -/
def Ended (w : BaseWalk) : Prop := ∀ d ∈ w.next, d ∈ w.seen

end BaseWalk

namespace Ontology

/-- The ids that walks along bases and views of classes follow lead somewhere. -/
structure InRange (o : Ontology) : Prop where
  bases : ∀ c ∈ o.classes, ∀ b ∈ c.base, b.index < o.classes.length
  properties : ∀ c ∈ o.classes, ∀ p ∈ c.properties, p.index < o.properties.length

/-- A round of a walk marks the next class, lists it and goes on to its base. There is none for a marked class, and
none for a class that is not found. -/
inductive Round (o : Ontology) : BaseWalk → BaseWalk → Prop where
  | follow {seen listed : List ClassId} {d : ClassId} {c : Class} (hnew : d ∉ seen) (hfound : o.class? d = some c) :
      Round o ⟨seen, listed, some d⟩ ⟨d :: seen, listed ++ [d], c.base⟩

/-- The walk from a class starts with that class marked and with its base next. -/
def baseWalk (o : Ontology) (id : ClassId) : BaseWalk := ⟨[id], [], o.base? id⟩

/-- A way along bases from a class that meets no class twice. -/
structure BaseWay (o : Ontology) (id : ClassId) (l : List ClassId) : Prop where
  chain : (id :: l).IsChain fun c b => o.base? c = some b
  nodup : (id :: l).Nodup

/-- What the nearest class of a lineage that declares anything under a key declares under it. -/
def nearest {α κ : Type} [DecidableEq κ] (key : α → κ) (own : ClassId → List α) (lineage : List ClassId)
    (k : κ) : List α :=
  ((lineage.find? fun c => k ∈ (own c).map key).map fun c => (own c).filter fun a => key a = k).getD []

/-- What the walk along bases from a class comes to, and what the views of the class make of it. -/
structure Climbs (o : Ontology) (id : ClassId) : Prop where
  /-- No walk goes on for ever. -/
  terminates : WellFounded fun v w => o.Round w v
  /-- A walk from the class that cannot go on has ended, and has listed the ancestors. -/
  result : ∀ w, Relation.ReflTransGen o.Round (o.baseWalk id) w → (∀ v, ¬ o.Round w v) →
    w.Ended ∧ w.listed = o.ancestors id
  way : o.BaseWay id (o.ancestors id)
  /-- Every way without repetition is a beginning of the ancestors. -/
  longest : ∀ m, o.BaseWay id m → m <+: o.ancestors id
  /-- The last class has no base, or its base is the class itself or listed already. -/
  ends : ∀ c ∈ (o.lineage id).getLast?, ∀ b ∈ o.base? c, b ∈ o.lineage id
  short : (o.ancestors id).length < o.classes.length
  /-- The lineage has the classes that the class reaches along bases. -/
  reached : ∀ d, d ∈ o.lineage id ↔ Relation.ReflTransGen (fun c b => o.base? c = some b) id d
  /-- Every class of the lineage is found, and so are its properties. -/
  found : ∀ d ∈ o.lineage id, ∃ c, o.class? d = some c ∧
    c.properties.map o.property? = (o.ownProperties d).map some
  properties : ∀ name, (o.allProperties id).filter (fun p => p.name = name) =
    (nearest Property.name o.ownProperties (o.lineage id) name).take 1
  constraints : ∀ k, (o.allConstraints id).filter (fun c => c.key = k) =
    nearest Constraint.key o.ownConstraints (o.lineage id) k
  decodings : ∀ k, (o.allDecodings id).filter (fun d => d.key = k) =
    nearest Decoding.key o.ownDecodings (o.lineage id) k
  entity : o.isEntity id = true ↔ ∃ d ∈ o.lineage id, ∃ p ∈ o.ownProperties d, p.name = "meta"

end Ontology

section Chain

variable {base : ClassId → Option ClassId} {fuel : Nat} {seen m : List ClassId} {start : Option ClassId} {x : ClassId}

/-- What is listed from the base of a class on is a chain from the class. -/
theorem isChain_baseChain : (x :: baseChain base fuel seen (base x)).IsChain fun c b => base c = some b := by
  induction fuel generalizing x seen with
  | zero => exact .singleton x
  | succ fuel ih =>
    cases hx : base x with
    | none => exact .singleton x
    | some y =>
      rw [baseChain]
      split
      · exact .singleton x
      · exact List.isChain_cons_cons.mpr ⟨hx, ih⟩

/-- Nothing is listed twice, and nothing that has been met before. -/
theorem nodup_baseChain : (baseChain base fuel seen start).Nodup ∧ ∀ d ∈ baseChain base fuel seen start, d ∉ seen := by
  induction fuel generalizing seen start with
  | zero => exact ⟨.nil, List.forall_mem_nil _⟩
  | succ fuel ih =>
    cases start with
    | none => exact ⟨.nil, List.forall_mem_nil _⟩
    | some y =>
      rw [baseChain]
      split
      next => exact ⟨.nil, List.forall_mem_nil _⟩
      next hnew =>
        obtain ⟨hnodup, hfresh⟩ := @ih (y :: seen) (base y)
        refine ⟨List.nodup_cons.mpr ⟨fun hmem => hfresh y hmem List.mem_cons_self, hnodup⟩, ?_⟩
        exact List.forall_mem_cons.mpr ⟨hnew, fun d hd hmem => hfresh d hd (List.mem_cons_of_mem y hmem)⟩

/-- A chain that meets no class twice, and none that has been met before, is a beginning of what is listed, if there
are steps enough for it. -/
theorem prefix_baseChain (hchain : (x :: m).IsChain fun c b => base c = some b) (hnodup : m.Nodup)
    (hfresh : ∀ d ∈ m, d ∉ seen) (hfuel : m.length ≤ fuel) : m <+: baseChain base fuel seen (base x) := by
  induction m generalizing x seen fuel with
  | nil => exact List.nil_prefix
  | cons y m ih =>
    obtain ⟨hy, hchain⟩ := List.isChain_cons_cons.mp hchain
    obtain ⟨hnew, hnodup⟩ := List.nodup_cons.mp hnodup
    obtain ⟨hunseen, hfresh⟩ := List.forall_mem_cons.mp hfresh
    rw [List.length_cons] at hfuel
    obtain ⟨fuel, rfl⟩ : ∃ n, fuel = n + 1 := ⟨fuel - 1, by omega⟩
    rw [hy, baseChain, if_neg hunseen]
    refine (List.prefix_cons_inj y).mpr (ih hchain hnodup (fun d hd => ?_) (by omega))
    exact List.not_mem_cons_of_ne_of_not_mem (fun heq => hnew (heq ▸ hd)) (hfresh d hd)

end Chain

section Nearest

variable {α κ : Type} [DecidableEq κ] {key : α → κ} {own : ClassId → List α} {k : κ}

namespace Ontology

/-- A class that declares anything under the key is the nearest one, and else the nearest one comes after it. -/
theorem nearest_cons (c : ClassId) (lineage : List ClassId) : nearest key own (c :: lineage) k =
    if k ∈ (own c).map key then (own c).filter fun a => key a = k else nearest key own lineage k := by
  rw [nearest, List.find?_cons]
  by_cases hk : k ∈ (own c).map key
  · rw [decide_eq_true hk, if_pos hk]
    rfl
  · rw [decide_eq_false hk, if_neg hk]
    rfl

/-- Merging the levels of a lineage keeps under a key what the nearest class declares. -/
theorem filter_mergeLevels (lineage : List ClassId) :
    (mergeLevels key [] (lineage.map own)).filter (fun a => key a = k) = nearest key own lineage k := by
  induction lineage with
  | nil => rfl
  | cons c lineage ih => rw [List.map_cons, mergeLevels_cons, filter_append_fresh, nearest_cons, ih]

/-- Keeping what comes first in a lineage keeps under a key the first item that the nearest class declares. -/
theorem filter_keepFirst_flatMap (lineage : List ClassId) :
    (keepFirst key (lineage.flatMap own)).filter (fun a => key a = k) = (nearest key own lineage k).take 1 := by
  rw [filter_keepFirst]
  induction lineage with
  | nil => rfl
  | cons c lineage ih =>
    rw [List.flatMap_cons, List.filter_append, nearest_cons]
    split
    next hk =>
      obtain ⟨a, ha, hkey⟩ := List.mem_map.mp hk
      have hmem : a ∈ (own c).filter fun a => key a = k := List.mem_filter.mpr ⟨ha, decide_eq_true hkey⟩
      exact List.take_append_of_le_length (List.length_pos_of_mem hmem)
    next hk =>
      have hnone : (own c).filter (fun a => key a = k) = [] := by
        apply List.filter_eq_nil_iff.mpr
        intro a ha hkey
        exact hk (of_decide_eq_true hkey ▸ List.mem_map_of_mem ha)
      rw [hnone, List.nil_append, ih]

end Ontology

end Nearest

namespace Ontology

variable {o : Ontology} {id : ClassId} {w v : BaseWalk}

/-- The number of classes that a walk has not marked. -/
def unmarked (o : Ontology) (w : BaseWalk) : ℕ :=
  ((Finset.range o.classes.length).filter fun i => (⟨i⟩ : ClassId) ∉ w.seen).card

/-- A round leaves fewer classes unmarked. -/
theorem unmarked_lt_of_round (h : o.Round w v) : o.unmarked v < o.unmarked w := by
  cases h with
  | @follow seen listed d c hnew hfound =>
    obtain ⟨hlt, -⟩ := List.getElem?_eq_some_iff.mp hfound
    apply Finset.card_lt_card
    refine Finset.ssubset_iff_subset_ne.mpr ⟨fun i hi => ?_, fun heq => ?_⟩
    · obtain ⟨hi, hunseen⟩ := Finset.mem_filter.mp hi
      exact Finset.mem_filter.mpr ⟨hi, fun hmem => hunseen (List.mem_cons_of_mem d hmem)⟩
    · have hd : d.index ∈ (Finset.range o.classes.length).filter fun i => (⟨i⟩ : ClassId) ∉ seen :=
        Finset.mem_filter.mpr ⟨Finset.mem_range.mpr hlt, hnew⟩
      rw [← heq] at hd
      exact (Finset.mem_filter.mp hd).2 List.mem_cons_self

/-- No walk along bases goes on for ever. -/
theorem wellFounded_round (o : Ontology) : WellFounded fun v w => o.Round w v :=
  Subrelation.wf (fun h => unmarked_lt_of_round h) (measure o.unmarked).wf

/-- What holds of a walk from a class after every round. -/
structure Underway (o : Ontology) (id : ClassId) (w : BaseWalk) : Prop extends o.BaseWay id w.listed where
  seen : ∀ d, d ∈ w.seen ↔ d ∈ id :: w.listed
  next : ∀ c ∈ (id :: w.listed).getLast?, o.base? c = w.next

/-- A walk starts underway. -/
theorem underway_baseWalk (o : Ontology) (id : ClassId) : o.Underway id (o.baseWalk id) where
  chain := .singleton id
  nodup := List.nodup_singleton id
  seen := fun _ => Iff.rfl
  next := fun c hc => by
    obtain rfl : id = c := Option.some.inj hc
    rfl

/-- A round keeps a walk underway. -/
theorem Underway.round (h : o.Underway id w) (hround : o.Round w v) : o.Underway id v := by
  cases hround with
  | @follow seen listed d c hnew hfound =>
    have hlisted : d ∉ id :: listed := fun hmem => hnew ((h.seen d).mpr hmem)
    refine ⟨⟨?_, ?_⟩, fun e => ?_, fun e he => ?_⟩
    · refine List.isChain_append.mpr ⟨h.chain, .singleton d, fun e he f hf => ?_⟩
      obtain rfl : d = f := Option.some.inj hf
      exact h.next e he
    · exact List.nodup_append.mpr ⟨h.nodup, List.nodup_singleton d,
        fun e he f hf heq => hlisted (List.mem_singleton.mp hf ▸ heq ▸ he)⟩
    · rw [List.mem_cons, h.seen, ← List.cons_append, List.mem_append, List.mem_singleton, or_comm]
    · rw [← List.cons_append, List.getLast?_concat, Option.mem_some_iff] at he
      rw [← he, base?, hfound]
      rfl

/-- A walk is underway after any number of rounds. -/
theorem Underway.rounds (h : o.Underway id w) (hrounds : Relation.ReflTransGen o.Round w v) : o.Underway id v := by
  induction hrounds with
  | refl => exact h
  | tail _ hround ih => exact ih.round hround

/-- The ancestors are a way along bases without repetition. -/
theorem baseWay_ancestors (o : Ontology) (id : ClassId) : o.BaseWay id (o.ancestors id) := by
  obtain ⟨hnodup, hfresh⟩ := @nodup_baseChain o.base? (o.classes.length + 1) [id] (o.base? id)
  exact ⟨isChain_baseChain, List.nodup_cons.mpr ⟨fun hmem => hfresh id hmem List.mem_cons_self, hnodup⟩⟩

namespace InRange

variable {m : List ClassId} {c b : ClassId}

/-- The base of a class is a class. -/
theorem class?_of_base? (ho : o.InRange) (h : o.base? c = some b) : ∃ d, o.class? b = some d := by
  obtain ⟨d, hd, hb⟩ := Option.bind_eq_some_iff.mp h
  exact ⟨_, List.getElem?_eq_getElem (ho.bases d (List.mem_of_getElem? hd) b hb)⟩

/-- The classes on a way from a class are classes. -/
theorem class?_of_mem (ho : o.InRange) (hid : ∃ d, o.class? id = some d) (hm : o.BaseWay id m) :
    ∀ e ∈ id :: m, ∃ d, o.class? e = some d :=
  hm.chain.induction (fun e => ∃ d, o.class? e = some d) _ (fun _ _ h _ => ho.class?_of_base? h) fun _ => hid

/-- A way without repetition is shorter than the list of classes. -/
theorem length_lt (ho : o.InRange) (hid : ∃ d, o.class? id = some d) (hm : o.BaseWay id m) :
    m.length < o.classes.length :=
  length_le_of_class? hm.nodup (ho.class?_of_mem hid hm)

/-- A way without repetition is a beginning of the ancestors. -/
theorem prefix_ancestors (ho : o.InRange) (hid : ∃ d, o.class? id = some d) (hm : o.BaseWay id m) :
    m <+: o.ancestors id := by
  obtain ⟨hnew, hnodup⟩ := List.nodup_cons.mp hm.nodup
  have hlength := ho.length_lt hid hm
  refine prefix_baseChain hm.chain hnodup (fun d hd hmem => ?_) (by omega)
  exact hnew (List.mem_singleton.mp hmem ▸ hd)

/-- The base of the last ancestor, if it has one, is in the lineage. -/
theorem mem_lineage_of_last (ho : o.InRange) (hid : ∃ d, o.class? id = some d) (hc : c ∈ (o.lineage id).getLast?)
    (hb : o.base? c = some b) : b ∈ o.lineage id := by
  by_contra hnew
  -- else the way could be longer by that base
  obtain ⟨hchain, hnodup⟩ := o.baseWay_ancestors id
  have hlonger : o.BaseWay id (o.ancestors id ++ [b]) := by
    refine ⟨List.isChain_append.mpr ⟨hchain, .singleton b, fun d hd e he => ?_⟩,
      List.nodup_append.mpr ⟨hnodup, List.nodup_singleton b, fun d hd e he heq => ?_⟩⟩
    · obtain rfl : c = d := Option.some.inj (hc.symm.trans hd)
      obtain rfl : b = e := Option.some.inj he
      exact hb
    · exact hnew (List.mem_singleton.mp he ▸ heq ▸ hd)
  have hlength := (ho.prefix_ancestors hid hlonger).length_le
  rw [List.length_append, List.length_singleton] at hlength
  omega

/-- The lineage has the base of every class in it. -/
theorem mem_lineage_of_base? (ho : o.InRange) (hid : ∃ d, o.class? id = some d) (hc : c ∈ o.lineage id)
    (hb : o.base? c = some b) : b ∈ o.lineage id := by
  obtain ⟨s, t, hsplit⟩ := List.append_of_mem hc
  cases t with
  | nil => exact ho.mem_lineage_of_last hid (hsplit ▸ List.getLast?_concat) hb
  | cons d t =>
    have hchain : (o.lineage id).IsChain fun c b => o.base? c = some b := (o.baseWay_ancestors id).chain
    rw [hsplit] at hchain
    have hd := (List.isChain_cons_cons.mp (List.isChain_append.mp hchain).2.1).1
    obtain rfl : b = d := Option.some.inj (hb.symm.trans hd)
    rw [hsplit]
    exact List.mem_append_right s (List.mem_cons_of_mem c List.mem_cons_self)

/-- The lineage has the classes that are reached along bases. -/
theorem mem_lineage_iff (ho : o.InRange) (hid : ∃ d, o.class? id = some d) :
    c ∈ o.lineage id ↔ Relation.ReflTransGen (fun c b => o.base? c = some b) id c := by
  constructor
  · exact (o.baseWay_ancestors id).chain.induction (Relation.ReflTransGen (fun c b => o.base? c = some b) id) _
      (fun _ _ h hreach => hreach.tail h) (fun _ => .refl) c
  · intro h
    induction h with
    | refl => exact List.mem_cons_self
    | tail _ hb ih => exact ho.mem_lineage_of_base? hid ih hb

/-- A walk that cannot go on has ended: the class that is next is marked, since it is found. -/
theorem ended_of_underway (ho : o.InRange) (hw : o.Underway id w) (hstuck : ∀ v, ¬ o.Round w v) : w.Ended := by
  obtain ⟨seen, listed, next⟩ := w
  intro d hd
  obtain rfl : next = some d := hd
  obtain ⟨c, hc⟩ := Option.isSome_iff_exists.mp
    (List.getLast?_isSome.mpr (List.cons_ne_nil id listed))
  obtain ⟨e, he⟩ := ho.class?_of_base? (hw.next c hc)
  by_contra hnew
  exact hstuck _ (.follow hnew he)

/-- A walk that has ended has listed the ancestors. -/
theorem listed_eq_ancestors (ho : o.InRange) (hid : ∃ d, o.class? id = some d) (hw : o.Underway id w)
    (hended : w.Ended) : w.listed = o.ancestors id := by
  obtain ⟨rest, hrest⟩ := ho.prefix_ancestors hid hw.toBaseWay
  cases rest with
  | nil => rw [← hrest, List.append_nil]
  | cons b rest =>
    -- the next ancestor would be the next class of the walk, which it has listed
    obtain ⟨hchain, hnodup⟩ := o.baseWay_ancestors id
    rw [← hrest, ← List.cons_append] at hchain hnodup
    obtain ⟨c, hc⟩ := Option.isSome_iff_exists.mp (List.getLast?_isSome.mpr (List.cons_ne_nil id w.listed))
    have hnext : w.next = some b := (hw.next c hc).symm.trans ((List.isChain_append.mp hchain).2.2 c hc b rfl)
    have hlisted := (hw.seen b).mp (hended b hnext)
    exact absurd rfl ((List.nodup_append.mp hnodup).2.2 b hlisted b List.mem_cons_self)

/-- The properties that a class lists are found. -/
theorem map_property? (ho : o.InRange) {d : Class} (hd : o.class? c = some d) :
    d.properties.map o.property? = (o.ownProperties c).map some := by
  rw [ownProperties, hd, Option.map_some, Option.getD_some]
  have hfound : ∀ p ∈ d.properties, ∃ q, o.property? p = some q := fun p hp =>
    ⟨_, List.getElem?_eq_getElem (ho.properties d (List.mem_of_getElem? hd) p hp)⟩
  generalize d.properties = listed at hfound ⊢
  induction listed with
  | nil => rfl
  | cons p rest ih =>
    obtain ⟨⟨q, hq⟩, hrest⟩ := List.forall_mem_cons.mp hfound
    rw [List.map_cons, List.filterMap_cons_some hq, List.map_cons, hq, ih hrest]

end InRange

/-- Whatever the bases are, the walk along them ends, and the views have what the nearest classes declare. -/
theorem climbs_of_inRange (ho : o.InRange) (hid : id.index < o.classes.length) : o.Climbs id := by
  have hfound : ∃ d, o.class? id = some d := ⟨_, List.getElem?_eq_getElem hid⟩
  have hway := o.baseWay_ancestors id
  refine
    { terminates := o.wellFounded_round
      result := fun w hrun hstuck => ?_
      way := hway
      longest := fun m hm => ho.prefix_ancestors hfound hm
      ends := fun c hc b hb => ho.mem_lineage_of_last hfound hc hb
      short := ho.length_lt hfound hway
      reached := fun d => ho.mem_lineage_iff hfound
      found := fun d hd => ?_
      properties := fun name => ?_
      constraints := fun k => ?_
      decodings := fun k => ?_
      entity := ?_ }
  · have hw := (o.underway_baseWalk id).rounds hrun
    have hended := ho.ended_of_underway hw hstuck
    exact ⟨hended, ho.listed_eq_ancestors hfound hw hended⟩
  · obtain ⟨c, hc⟩ := ho.class?_of_mem hfound hway d hd
    exact ⟨c, hc, ho.map_property? hc⟩
  · rw [allProperties, filter_sortOn fun p q hp hq => (of_decide_eq_true hp).trans (of_decide_eq_true hq).symm,
      filter_keepFirst_flatMap]
  · rw [allConstraints, filter_mergeSort constraintOrder, filter_mergeLevels]
    exact fun c d hc hd => constraintOrder_eq ((of_decide_eq_true hc).trans (of_decide_eq_true hd).symm)
  · rw [allDecodings, filter_sortOn fun d e hd he => ?_, filter_mergeLevels]
    exact congrArg Prod.fst ((of_decide_eq_true hd).trans (of_decide_eq_true he).symm)
  · simp only [isEntity, entityMarker, List.any_eq_true, beq_iff_eq]

/-- A class of the shoal. -/
def shoalClass (index : Nat) (name : String) (base : Nat) (properties : List PropertyId)
    (constraints : List Constraint) : Class :=
  ⟨⟨index⟩, name, "sea." ++ name, ⟨0⟩, none, some ⟨base⟩, false, "", properties, constraints, [], ∅, ∅⟩

/-- A property of a class of the shoal. -/
def shoalProperty (index : Nat) (name : String) (owner : Nat) : Property :=
  ⟨⟨index⟩, name, ⟨owner⟩, ⟨0⟩, .parse "str", ⟨0, .one⟩, ""⟩

/-- Every class has a base: the first leads into a loop of the next two, and the last is its own base. -/
def shoal : Ontology where
  name := "shoal"
  version := "1"
  doc := ""
  packages := [⟨⟨0⟩, "sea", "", [⟨0⟩, ⟨1⟩, ⟨2⟩, ⟨3⟩], [], ∅, ∅⟩]
  classes := [
    shoalClass 0 "cod" 1 [⟨0⟩] [⟨"fin", .hidden, .boolean true⟩],
    shoalClass 1 "eel" 2 [⟨1⟩, ⟨2⟩] [⟨"fin", .regex, .text "a"⟩, ⟨"fin", .regex, .text "b"⟩],
    shoalClass 2 "ray" 1 [⟨3⟩] [⟨"fin", .regex, .text "c"⟩, ⟨"fin", .hidden, .null⟩],
    shoalClass 3 "tuna" 3 [] []]
  enums := []
  properties := [shoalProperty 0 "fin" 0, shoalProperty 1 "fin" 1, shoalProperty 2 "tail" 1, shoalProperty 3 "meta" 2]
  index := .ofList [("sea.cod", .ofClass ⟨0⟩), ("sea.eel", .ofClass ⟨1⟩), ("sea.ray", .ofClass ⟨2⟩),
    ("sea.tuna", .ofClass ⟨3⟩)]
  diagnostics := []

/-- Each class of the loop is met once from outside the loop, from within it and from its own base. -/
theorem shoal_climbs : shoal.InRange ∧ (0 < shoal.classes.length ∧ shoal.Climbs ⟨0⟩) ∧
    (3 < shoal.classes.length ∧ shoal.Climbs ⟨3⟩) ∧
      [0, 1, 2, 3].map (fun i => shoal.ancestors ⟨i⟩) = [[⟨1⟩, ⟨2⟩], [⟨2⟩], [⟨1⟩], []] ∧
        (shoal.allProperties ⟨0⟩).map (fun p => (p.name, p.owner)) =
          [("fin", ⟨0⟩), ("meta", ⟨2⟩), ("tail", ⟨1⟩)] ∧
            (shoal.allConstraints ⟨2⟩).map Constraint.value = [.null, .text "c"] ∧
              (shoal.allConstraints ⟨0⟩).map Constraint.value = [.boolean true, .text "a", .text "b"] := by
  have hrange : shoal.InRange := ⟨by decide, by decide⟩
  have hfirst : (⟨0⟩ : ClassId).index < shoal.classes.length := by decide
  have hlast : (⟨3⟩ : ClassId).index < shoal.classes.length := by decide
  refine ⟨hrange, ⟨hfirst, climbs_of_inRange hrange hfirst⟩, ⟨hlast, climbs_of_inRange hrange hlast⟩, ?_, ?_, ?_, ?_⟩
  · decide
  · cbv
  · cbv
  · cbv

end Ontology

end OntologyCompiler
