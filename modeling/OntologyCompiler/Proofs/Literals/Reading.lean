import OntologyCompiler.Json.Token
import OntologyCompiler.Proofs.Literals.Visible

/-!
# Reading Python literals

A reader for the literals that a value of JSON is written as: names of constants, numbers, texts between double quotes,
lists and dictionaries. It knows more than is written, as the escapes for a code point in three lengths, blanks between
any two tokens, or a comma behind the last item. What is written of a value is read back to the last character, and it is
the value that is read, with the texts of its numbers in the place of the numbers. So two values are written alike only
if they differ in nothing but numbers with the same text.
-/

namespace OntologyCompiler

namespace Literal

/-- What a literal stands for. A number is kept as its text, and a dictionary as its items. -/
inductive Value where
  | none
  | boolean (value : Bool)
  | number (text : String)
  | text (value : String)
  | list (items : List Value)
  | dictionary (items : List (String × Value))

mutual

/-- A value of JSON with its numbers as texts. -/
def meaning : Json → Value
  | .null => .none
  | .boolean b => .boolean b
  | .number n => .number n.render
  | .text s => .text s
  | .list items => .list (meanings items)
  | .object fields => .dictionary (fieldMeanings fields)

/-- The items of a list. -/
def meanings : List Json → List Value
  | [] => []
  | a :: rest => meaning a :: meanings rest

/-- The items of a dictionary. -/
def fieldMeanings : List (String × Json) → List (String × Value)
  | [] => []
  | (k, a) :: rest => (k, meaning a) :: fieldMeanings rest

end

/-- A character of a name or a number. -/
def isAtomChar (c : Char) : Bool := c.isAlphanum || c == '_' || c == '.' || c == '+' || c == '-'

/-- The constant of a name, or a number. -/
def atom? (cs : List Char) : Option Value :=
  if cs = "None".toList then some .none
  else if cs = "True".toList then some (.boolean true)
  else if cs = "False".toList then some (.boolean false)
  else if isNumber cs then some (.number (String.ofList cs))
  else none

/-- Reads a constant or a number up to where its characters end. -/
def readAtom (cs : List Char) : Option (Value × List Char) :=
  (atom? (cs.takeWhile isAtomChar)).map fun value => (value, cs.dropWhile isAtomChar)

/-- The character that stands behind a backslash. -/
def escaped? (c : Char) : Option Char :=
  match c with
  | '\\' => some '\\'
  | '\'' => some '\''
  | '"' => some '"'
  | 'a' => some (Char.ofNat 7)
  | 'b' => some (Char.ofNat 8)
  | 'f' => some (Char.ofNat 12)
  | 'n' => some '\n'
  | 'r' => some '\r'
  | 't' => some '\t'
  | 'v' => some (Char.ofNat 11)
  | _ => none

/-- The character of a code point in hexadecimal digits; a surrogate is none. -/
def codePoint? (digits : List Char) : Option Char :=
  (digits.mapM JsonToken.hexValue?).bind fun values =>
    let n := values.foldl (fun n value => n * 16 + value) 0
    if n.isValidChar then some (Char.ofNat n) else none

/-- A character in front of what is read behind it. -/
def prepend (c : Option Char) (text : Option (List Char × List Char)) : Option (List Char × List Char) :=
  c.bind fun c => text.map fun parts => (c :: parts.1, parts.2)

/-- Reads a text behind its opening quote up to the closing one. A line must not end in it. -/
def readText : List Char → Option (List Char × List Char)
  | [] => none
  | '"' :: rest => some ([], rest)
  | '\\' :: 'x' :: a :: b :: rest => prepend (codePoint? [a, b]) (readText rest)
  | '\\' :: 'u' :: a :: b :: c :: d :: rest => prepend (codePoint? [a, b, c, d]) (readText rest)
  | '\\' :: 'U' :: a :: b :: c :: d :: e :: f :: g :: h :: rest =>
    prepend (codePoint? [a, b, c, d, e, f, g, h]) (readText rest)
  | '\\' :: c :: rest => prepend (escaped? c) (readText rest)
  | c :: rest => if c = '\\' ∨ c = '\n' ∨ c = '\r' ∨ c.toNat = 0 then none else prepend (some c) (readText rest)

/-- What follows blanks. -/
def skip (cs : List Char) : List Char := cs.dropWhile (· = ' ')

section Series

variable {α : Type}

/-- Reads items with commas between them up to a closing bracket. -/
def readSeries (close : Char) (readItem : List Char → Option (α × List Char)) :
    Nat → List Char → Option (List α × List Char)
  | 0, _ => none
  | fuel + 1, cs =>
    if cs.head? = some close then some ([], cs.tail)
    else
      (readItem cs).bind fun item =>
        match skip item.2 with
        | [] => none
        | c :: rest =>
          if c = close then some ([item.1], rest)
          else if c = ',' then
            (readSeries close readItem fuel (skip rest)).map fun items => (item.1 :: items.1, items.2)
          else none

/-- Reads a key and what stands behind its colon. -/
def readEntry (readItem : List Char → Option (α × List Char)) (cs : List Char) : Option ((String × α) × List Char) :=
  match cs with
  | '"' :: rest =>
    (readText rest).bind fun key =>
      match skip key.2 with
      | ':' :: rest => (readItem (skip rest)).map fun item => ((String.ofList key.1, item.1), item.2)
      | _ => none
  | _ => none

end Series

/-- Reads a literal at the start of a text. -/
def readValue : Nat → List Char → Option (Value × List Char)
  | 0, _ => none
  | fuel + 1, cs =>
    match cs with
    | '"' :: rest => (readText rest).map fun text => (.text (String.ofList text.1), text.2)
    | '[' :: rest => (readSeries ']' (readValue fuel) fuel (skip rest)).map fun items => (.list items.1, items.2)
    | '\x7b' :: rest =>
      (readSeries '\x7d' (readEntry (readValue fuel)) fuel (skip rest)).map fun items => (.dictionary items.1, items.2)
    | cs => readAtom cs

/-- Reads a text that is a literal all through. No literal has more parts than characters. -/
def read (s : String) : Option Value :=
  match readValue s.toList.length s.toList with
  | some (value, []) => some value
  | _ => none

section Texts

variable {cs rest : List Char} {c : Char}

/-- The two last digits of a code point below U+0020 give it back. -/
theorem codePoint?_of_lt {n : Nat} (h : n < 32) :
    codePoint? ['0', '0', Json.hexDigit (n / 16), Json.hexDigit (n % 16)] = some (Char.ofNat n) := by
  revert n
  decide +kernel

/-- A character that is written as itself is read. -/
theorem readText_cons (hquote : c ≠ '"') (hbackslash : c ≠ '\\') (hvisible : 32 ≤ c.toNat) :
    readText (c :: rest) = prepend (some c) (readText rest) := by
  have hfeed : c ≠ '\n' ∧ c ≠ '\r' ∧ c.toNat ≠ 0 := by
    refine ⟨?_, ?_, by omega⟩ <;> (rintro rfl; exact absurd hvisible (by decide))
  rw [readText, if_neg (by simp [hbackslash, hfeed])]
  all_goals simp [hquote, hbackslash]

/-- A character is read back, whichever way it is written. -/
theorem readText_of_escaped (h : Json.Escaped c cs) : readText (cs ++ rest) = prepend (some c) (readText rest) := by
  have hletters : ∀ e ∈ Json.letters, readText ('\\' :: e.1 :: rest) = prepend (some e.2) (readText rest) := by
    simp only [Json.letters, List.forall_mem_cons, List.not_mem_nil, false_implies, implies_true, and_true]
    exact ⟨rfl, rfl, rfl, rfl, rfl, rfl, rfl⟩
  cases h with
  | self hquote hbackslash hvisible => exact readText_cons hquote hbackslash hvisible
  | letter hletter => exact hletters _ hletter
  | codePoint hcontrol =>
    change prepend (codePoint? _) (readText rest) = _
    rw [codePoint?_of_lt hcontrol, Char.ofNat_toNat]

/-- A text between quotes is read back up to its closing quote. -/
theorem readText_quote (s : String) (rest : List Char) :
    readText (s.toList.flatMap Json.escapeChar ++ '"' :: rest) = some (s.toList, rest) := by
  induction s.toList with
  | nil => rfl
  | cons c cs ih => rw [List.flatMap_cons, List.append_assoc, readText_of_escaped (Json.escaped_escapeChar c), ih]; rfl

end Texts

section Atoms

variable {cs rest : List Char} {value : Value}

/-- No name and no number goes on with the next character. -/
def Ends (rest : List Char) : Prop := ∀ c ∈ rest.head?, isAtomChar c = false

/-- Characters of numbers are characters of atoms. -/
theorem isAtomChar_of_isNumberChar {c : Char} (h : isNumberChar c = true) : isAtomChar c = true := by
  simp only [isNumberChar, Bool.or_eq_true, beq_iff_eq] at h
  rcases h with ((((hdigit | rfl) | rfl) | rfl) | rfl) | rfl
  · simp [isAtomChar, Char.isAlphanum, hdigit]
  all_goals rfl

/-- An atom is read up to where it ends. -/
theorem readAtom_append (hcs : ∀ c ∈ cs, isAtomChar c = true) (hvalue : atom? cs = some value) (hends : Ends rest) :
    readAtom (cs ++ rest) = some (value, rest) := by
  have hstop : rest.takeWhile isAtomChar = [] ∧ rest.dropWhile isAtomChar = rest := by
    cases rest with
    | nil => exact ⟨rfl, rfl⟩
    | cons c rest => simp [hends c rfl]
  rw [readAtom, List.takeWhile_append_of_pos hcs, List.dropWhile_append_of_pos hcs, hstop.1, hstop.2, List.append_nil,
    hvalue]
  rfl

/-- An atom is read as a literal. -/
theorem readValue_atom {fuel : Nat} (hne : cs ≠ []) (hcs : ∀ c ∈ cs, isAtomChar c = true)
    (hvalue : atom? cs = some value) (hends : Ends rest) (hfuel : 0 < fuel) :
    readValue fuel (cs ++ rest) = some (value, rest) := by
  obtain ⟨fuel, rfl⟩ := Nat.exists_eq_succ_of_ne_zero (Nat.ne_of_gt hfuel)
  rw [← readAtom_append hcs hvalue hends]
  cases cs with
  | nil => exact absurd rfl hne
  | cons c cs =>
    have hc : isAtomChar c = true := hcs c List.mem_cons_self
    rw [List.cons_append, readValue]
    all_goals
      rintro _ ⟨⟩
      exact absurd hc (by decide)

/-- A number is none of the named constants. -/
theorem atom?_of_isNumber (h : isNumber cs = true) : atom? cs = some (.number (String.ofList cs)) := by
  have hnames : ∀ name ∈ ["None", "True", "False"], cs ≠ name.toList := by
    rintro name hname rfl
    revert h
    revert name
    decide
  simp only [List.forall_mem_cons] at hnames
  obtain ⟨hnone, htrue, hfalse, -⟩ := hnames
  rw [atom?, if_neg hnone, if_neg htrue, if_neg hfalse, if_pos h]

end Atoms

section Series

variable {α β : Type} {readItem : List Char → Option (α × List Char)} {text : β → String} {value : β → α}
  {items : List β} {close : Char} {rest : List Char} {fuel : Nat}

/-- An item is read from its text, up to whatever follows that is not a part of it. -/
def Reads (readItem : List Char → Option (α × List Char)) (text : String) (item : α) : Prop :=
  ∀ rest, Ends rest → readItem (text.toList ++ rest) = some (item, rest)

/-- A text that neither starts with a blank nor closes a list or a dictionary. -/
def Opens (text : String) : Prop := ∃ c cs, text.toList = c :: cs ∧ c ≠ ' ' ∧ c ≠ ']' ∧ c ≠ '\x7d'

/-- What opens is not skipped. -/
theorem Opens.skip_append {text : String} (h : Opens text) : skip (text.toList ++ rest) = text.toList ++ rest := by
  obtain ⟨c, cs, htext, hblank, -⟩ := h
  rw [htext, List.cons_append, skip, List.dropWhile_cons_of_neg (by simpa using hblank)]

/-- Joined texts open if the first one does. -/
theorem Opens.join {parts : List String} {separator part : String} (h : Opens part) :
    Opens (Text.join separator (part :: parts)) := by
  obtain ⟨c, cs, htext, hopens⟩ := h
  cases parts with
  | nil => exact ⟨c, cs, htext, hopens⟩
  | cons next parts =>
    refine ⟨c, cs ++ (separator ++ Text.join separator (next :: parts)).toList, ?_, hopens⟩
    rw [Text.join, String.toList_append, htext, List.cons_append]

/-- Joined texts are not skipped in front of a closing bracket. -/
theorem skip_join {parts : List String} (hparts : ∀ part ∈ parts, Opens part) (hclose : close ≠ ' ') :
    skip ((Text.join ", " parts).toList ++ close :: rest) = (Text.join ", " parts).toList ++ close :: rest := by
  cases parts with
  | nil => exact List.dropWhile_cons_of_neg (by simpa using hclose)
  | cons part parts => exact (hparts part List.mem_cons_self).join.skip_append

/-- What may end a series: a closing bracket, which no item starts with. -/
structure Closes (close : Char) : Prop where
  isAtomChar_eq : isAtomChar close = false
  ne_blank : close ≠ ' '
  ne_comma : close ≠ ','
  head?_ne : ∀ {part : String} {cs : List Char}, Opens part → (part.toList ++ cs).head? ≠ some close

/-- A list and a dictionary have such brackets. -/
theorem closes_of_eq (h : close = ']' ∨ close = '\x7d') : Closes close where
  isAtomChar_eq := by rcases h with rfl | rfl <;> rfl
  ne_blank := by rcases h with rfl | rfl <;> decide
  ne_comma := by rcases h with rfl | rfl <;> decide
  head?_ne := by
    rintro part cs ⟨c, rest, htext, -, hlist, hdictionary⟩
    rw [htext]
    rintro ⟨⟩
    rcases h with rfl | rfl
    · exact hlist rfl
    · exact hdictionary rfl

/-- A series of no items is its closing bracket. -/
theorem readSeries_nil (hclose : Closes close) :
    readSeries close readItem (fuel + 1) (skip (close :: rest)) = some ([], rest) := by
  have hskip : skip (close :: rest) = close :: rest := List.dropWhile_cons_of_neg (by simpa using hclose.ne_blank)
  rw [hskip]
  exact if_pos rfl

/-- A closing bracket follows the last item. -/
theorem readSeries_last {part : String} {item : α} (hclose : Closes close) (hopens : Opens part)
    (hreads : Reads readItem part item) :
    readSeries close readItem (fuel + 1) (part.toList ++ close :: rest) = some ([item], rest) := by
  have hends : Ends (close :: rest) := by
    rintro _ ⟨⟩
    exact hclose.isAtomChar_eq
  have hskip : skip (close :: rest) = close :: rest := List.dropWhile_cons_of_neg (by simpa using hclose.ne_blank)
  rw [readSeries, if_neg (hclose.head?_ne hopens), hreads _ hends]
  simp only [Option.bind_some, hskip, if_true]

/-- A comma follows every other item. -/
theorem readSeries_comma {part : String} {item : α} {cs : List Char} (hclose : Closes close) (hopens : Opens part)
    (hreads : Reads readItem part item) :
    readSeries close readItem (fuel + 1) (part.toList ++ ',' :: ' ' :: cs) =
      (readSeries close readItem fuel (skip cs)).map fun items => (item :: items.1, items.2) := by
  have hends : Ends (',' :: ' ' :: cs) := by
    rintro _ ⟨⟩
    rfl
  have hcomma : skip (',' :: ' ' :: cs) = ',' :: ' ' :: cs := rfl
  have hblank : skip (' ' :: cs) = skip cs := rfl
  rw [readSeries, if_neg (hclose.head?_ne hopens), hreads _ hends]
  simp only [Option.bind_some, hcomma, if_neg (Ne.symm hclose.ne_comma), if_true, hblank]

/-- Items with commas between them are read up to the closing bracket. -/
theorem readSeries_join (hclose : Closes close)
    (hitems : ∀ b ∈ items, Opens (text b) ∧ Reads readItem (text b) (value b)) (hfuel : items.length < fuel) :
    readSeries close readItem fuel (skip ((Text.join ", " (items.map text)).toList ++ close :: rest)) =
      some (items.map value, rest) := by
  induction items generalizing fuel with
  | nil =>
    obtain ⟨fuel, rfl⟩ := Nat.exists_eq_succ_of_ne_zero (Nat.ne_of_gt hfuel)
    exact readSeries_nil hclose
  | cons b items ih =>
    rw [skip_join (List.forall_mem_map.mpr fun a ha => (hitems a ha).1) hclose.ne_blank]
    obtain ⟨⟨hopens, hreads⟩, hrest⟩ := List.forall_mem_cons.mp hitems
    obtain ⟨fuel, rfl⟩ := Nat.exists_eq_succ_of_ne_zero (Nat.ne_of_gt (Nat.zero_lt_of_lt hfuel))
    cases items with
    | nil => exact readSeries_last hclose hopens hreads
    | cons next items =>
      have hjoin : (Text.join ", " ((b :: next :: items).map text)).toList ++ close :: rest =
          (text b).toList ++ ',' :: ' ' :: ((Text.join ", " ((next :: items).map text)).toList ++ close :: rest) := by
        simp only [List.map_cons, Text.join, String.toList_append, List.append_assoc]
        rfl
      rw [hjoin, readSeries_comma hclose hopens hreads, ih hrest (by simpa using hfuel)]
      rfl

end Series

section Values

variable {α : Type} {fuel : Nat}

/-- The items of a list have the values of its items. -/
theorem meanings_eq_map (items : List Json) : meanings items = items.map meaning := by
  induction items with
  | nil => rfl
  | cons a rest ih => rw [meanings, ih, List.map_cons]

/-- The items of a dictionary have the keys and values of its items. -/
theorem fieldMeanings_eq_map (fields : List (String × Json)) :
    fieldMeanings fields = fields.map fun f => (f.1, meaning f.2) := by
  induction fields with
  | nil => rfl
  | cons f rest ih => rw [fieldMeanings, ih, List.map_cons]

/-- A key opens. -/
theorem opens_renderField (field : String × Json) : Opens (renderField field) := by
  have htext : (renderField field).toList =
      '"' :: ((field.1.toList.flatMap Json.escapeChar ++ ['"']) ++ (": " ++ render field.2).toList) := by
    rw [renderField, String.toList_append, Json.toList_quote, List.cons_append]
  exact ⟨_, _, htext, by decide⟩

/-- A literal opens. -/
theorem opens_render (v : Json) : Opens (render v) := by
  cases v with
  | null => exact ⟨'N', _, rfl, by decide⟩
  | boolean b => cases b <;> exact ⟨_, _, rfl, by decide⟩
  | number n =>
    have hnumber := n.isNumber_render
    obtain ⟨c, cs, htext⟩ : ∃ c cs, n.render.toList = c :: cs := by
      refine List.exists_cons_of_ne_nil fun hnil => ?_
      rw [hnil] at hnumber
      cases hnumber
    have hc : isNumberChar c = true := isNumberChar_of_isNumber hnumber c (htext ▸ List.mem_cons_self)
    refine ⟨c, cs, htext, ?_, ?_, ?_⟩ <;> (rintro rfl; exact absurd hc (by decide))
  | text s => exact ⟨'"', _, Json.toList_quote s, by decide⟩
  | list items => exact ⟨'[', _, by rw [render, String.toList_append]; rfl, by decide⟩
  | object fields => exact ⟨'\x7b', _, by rw [render, String.toList_append]; rfl, by decide⟩

/-- There is a character in every literal. -/
theorem pos_of_length_le {v : Json} (h : (render v).toList.length ≤ fuel) : 0 < fuel := by
  obtain ⟨c, cs, htext, -⟩ := opens_render v
  rw [htext] at h
  exact Nat.lt_of_lt_of_le (Nat.zero_lt_succ _) h

/-- A part is no longer than what it is joined to, and there are no more parts than characters. -/
theorem length_le_join {separator : String} {parts : List String} (h : ∀ part ∈ parts, Opens part) :
    parts.length ≤ (Text.join separator parts).toList.length ∧
      ∀ part ∈ parts, part.toList.length ≤ (Text.join separator parts).toList.length := by
  induction parts with
  | nil => exact ⟨Nat.le_refl _, nofun⟩
  | cons part parts ih =>
    obtain ⟨⟨c, cs, htext, -⟩, hrest⟩ := List.forall_mem_cons.mp h
    obtain ⟨hlength, hparts⟩ := ih hrest
    have hone : 1 ≤ part.toList.length := by simp [htext]
    cases parts with
    | nil => exact ⟨hone, List.forall_mem_singleton.mpr (Nat.le_refl _)⟩
    | cons next parts =>
      simp only [Text.join, String.toList_append, List.length_append, List.length_cons] at hlength hparts ⊢
      refine ⟨by omega, List.forall_mem_cons.mpr ⟨by omega, fun other hother => ?_⟩⟩
      have := hparts other hother
      omega

/-- There are fewer items than characters between the brackets, and each of them is shorter than all of them. -/
theorem length_of_enclosed {text : α → String} {items : List α} {opening closing : String} {fuel : Nat}
    (hopens : ∀ a ∈ items, Opens (text a)) (hbrackets : opening.toList.length = 1 ∧ closing.toList.length = 1)
    (hfuel : (opening ++ (Text.join ", " (items.map text) ++ closing)).toList.length ≤ fuel + 1) :
    items.length < fuel ∧ ∀ a ∈ items, (text a).toList.length < fuel := by
  obtain ⟨hcount, hparts⟩ := @length_le_join ", " _ (List.forall_mem_map.mpr hopens)
  simp only [String.toList_append, List.length_append, List.length_map] at hfuel hcount
  refine ⟨by omega, fun a ha => ?_⟩
  have := hparts _ (List.mem_map_of_mem ha)
  omega

/-- The bounds for the items of a list. -/
theorem length_of_items {items : List Json} (h : (render (.list items)).toList.length ≤ fuel + 1) :
    items.length < fuel ∧ ∀ a ∈ items, (render a).toList.length ≤ fuel := by
  rw [render, renderItems_eq_join] at h
  obtain ⟨hcount, hitems⟩ := length_of_enclosed (fun a _ => opens_render a) (by decide) h
  exact ⟨hcount, fun a ha => Nat.le_of_lt (hitems a ha)⟩

/-- The bounds for the values of a dictionary. -/
theorem length_of_fields {fields : List (String × Json)}
    (h : (render (.object fields)).toList.length ≤ fuel + 1) :
    fields.length < fuel ∧ ∀ f ∈ fields, (render f.2).toList.length ≤ fuel := by
  rw [render, renderFields_eq_join] at h
  obtain ⟨hcount, hfields⟩ := length_of_enclosed (fun f _ => opens_renderField f) (by decide) h
  refine ⟨hcount, fun f hf => ?_⟩
  have := hfields f hf
  simp only [renderField, String.toList_append, List.length_append] at this
  omega

/-- The name of a constant is read. -/
theorem reads_name {value : Value} {name : String} (hne : name ≠ "") (hname : name.toList.all isAtomChar = true)
    (hvalue : atom? name.toList = some value) (hfuel : 0 < fuel) : Reads (readValue fuel) name value :=
  fun _ hends => readValue_atom (by simpa using hne) (List.all_eq_true.mp hname) hvalue hends hfuel

/-- A number is read as its text. -/
theorem reads_number (n : JsonNumber) (hfuel : 0 < fuel) : Reads (readValue fuel) n.render (.number n.render) := by
  have hnumber := n.isNumber_render
  intro rest hends
  refine readValue_atom (fun hnil => ?_) (fun c hc => ?_) ?_ hends hfuel
  · rw [hnil] at hnumber
    cases hnumber
  · exact isAtomChar_of_isNumberChar (isNumberChar_of_isNumber hnumber c hc)
  · rw [atom?_of_isNumber hnumber, String.ofList_toList]

/-- A text is read up to its closing quote. -/
theorem reads_text (s : String) (hfuel : 0 < fuel) : Reads (readValue fuel) (Json.quote s) (.text s) := by
  obtain ⟨fuel, rfl⟩ := Nat.exists_eq_succ_of_ne_zero (Nat.ne_of_gt hfuel)
  intro rest _
  rw [Json.toList_quote, List.cons_append, List.append_assoc, readValue]
  change (readText (_ ++ '"' :: rest)).map _ = _
  rw [readText_quote, Option.map_some, String.ofList_toList]

/-- The characters of a text between brackets in front of others. -/
theorem toList_enclosed_append {opening closing : String} (o c : Char) (hopening : opening.toList = [o])
    (hclosing : closing.toList = [c]) (middle : String) (rest : List Char) :
    (opening ++ (middle ++ closing)).toList ++ rest = o :: (middle.toList ++ c :: rest) := by
  simp [String.toList_append, hopening, hclosing]

/-- A list is read if its items are. -/
theorem reads_list {items : List Json} (hitems : ∀ a ∈ items, Reads (readValue fuel) (render a) (meaning a))
    (hfuel : items.length < fuel) : Reads (readValue (fuel + 1)) (render (.list items)) (meaning (.list items)) := by
  intro rest _
  have hread := @readSeries_join _ _ _ _ _ _ _ rest _ (closes_of_eq (.inl rfl))
    (fun a ha => ⟨opens_render a, hitems a ha⟩) hfuel
  rw [render, renderItems_eq_join, toList_enclosed_append '[' ']' rfl rfl, readValue, hread, Option.map_some, meaning,
    meanings_eq_map]

/-- An item of a dictionary is read if its value is. -/
theorem reads_renderField {f : String × Json} (h : Reads (readValue fuel) (render f.2) (meaning f.2)) :
    Reads (readEntry (readValue fuel)) (renderField f) (f.1, meaning f.2) := by
  intro rest hends
  have htext : (renderField f).toList ++ rest =
      '"' :: (f.1.toList.flatMap Json.escapeChar ++ '"' :: ':' :: ' ' :: ((render f.2).toList ++ rest)) := by
    simp only [renderField, String.toList_append, Json.toList_quote, List.append_assoc, List.cons_append, List.nil_append]
    rfl
  have hskip : skip (' ' :: ((render f.2).toList ++ rest)) = (render f.2).toList ++ rest :=
    (opens_render f.2).skip_append
  rw [htext, readEntry, readText_quote, Option.bind_some]
  change (readValue fuel (skip (' ' :: _))).map _ = _
  rw [hskip, h rest hends, Option.map_some, String.ofList_toList]

/-- A dictionary is read if its values are. -/
theorem reads_dictionary {fields : List (String × Json)}
    (hfields : ∀ f ∈ fields, Reads (readValue fuel) (render f.2) (meaning f.2)) (hfuel : fields.length < fuel) :
    Reads (readValue (fuel + 1)) (render (.object fields)) (meaning (.object fields)) := by
  intro rest _
  have hread := @readSeries_join _ _ _ _ _ _ _ rest _ (closes_of_eq (.inr rfl))
    (fun f hf => ⟨opens_renderField f, reads_renderField (hfields f hf)⟩) hfuel
  rw [render, renderFields_eq_join, toList_enclosed_append '\x7b' '\x7d' rfl rfl, readValue, hread, Option.map_some,
    meaning, fieldMeanings_eq_map]

/-- A literal is read up to its end, whatever follows that does not go on with it. -/
theorem reads_render (v : Json) (hfuel : (render v).toList.length ≤ fuel) :
    Reads (readValue fuel) (render v) (meaning v) := by
  have hpos := pos_of_length_le hfuel
  -- The fuel is general, as an item is read with less of it.
  induction v using Json.inductionOn generalizing fuel with
  | null => exact reads_name (by decide) (by decide) rfl hpos
  | boolean b => cases b <;> exact reads_name (by decide) (by decide) rfl hpos
  | number n => exact reads_number n hpos
  | text s => exact reads_text s hpos
  | list items ih =>
    obtain ⟨fuel, rfl⟩ := Nat.exists_eq_succ_of_ne_zero (Nat.ne_of_gt hpos)
    obtain ⟨hcount, hitems⟩ := length_of_items hfuel
    exact reads_list (fun a ha => ih a ha (hitems a ha) (pos_of_length_le (hitems a ha))) hcount
  | object fields ih =>
    obtain ⟨fuel, rfl⟩ := Nat.exists_eq_succ_of_ne_zero (Nat.ne_of_gt hpos)
    obtain ⟨hcount, hfields⟩ := length_of_fields hfuel
    exact reads_dictionary (fun f hf => ih f hf (hfields f hf) (pos_of_length_le (hfields f hf))) hcount

/-- A literal is read back. -/
theorem read_render (v : Json) : read (render v) = some (meaning v) := by
  have hread := reads_render v (Nat.le_refl _) [] nofun
  rw [List.append_nil] at hread
  rw [read, hread]

/-- Values with the same meaning have the same literal. -/
theorem render_eq_of_meaning_eq {v w : Json} (h : meaning v = meaning w) : render v = render w := by
  induction v using Json.inductionOn generalizing w with
  | null => cases w <;> simp_all [meaning]
  | boolean b => cases w <;> simp_all [meaning]
  | number n => cases w <;> simp_all [meaning, render]
  | text s => cases w <;> simp_all [meaning]
  | list items ih =>
    cases w with
    | list items' =>
      rw [meaning, meaning, meanings_eq_map, meanings_eq_map] at h
      have hitems : items.map render = items'.map render :=
        map_eq_map_of_imp (Value.list.inj h) fun a ha _ _ hab => ih a ha hab
      rw [render, render, renderItems_eq_join, renderItems_eq_join, hitems]
    | _ => cases h
  | object fields ih =>
    cases w with
    | object fields' =>
      rw [meaning, meaning, fieldMeanings_eq_map, fieldMeanings_eq_map] at h
      have hfields : fields.map renderField = fields'.map renderField := by
        refine map_eq_map_of_imp (Value.dictionary.inj h) fun f hf g _ hfg => ?_
        obtain ⟨hkey, hvalue⟩ := Prod.mk.inj hfg
        rw [renderField, renderField, hkey, ih f hf hvalue]
      rw [render, render, renderFields_eq_join, renderFields_eq_join, hfields]
    | _ => cases h

end Values

/-- A literal is read back as the value that it is written for, to its last character. Two values have one literal only
if they differ in nothing but numbers with one text. No literal has a control character. -/
theorem literals_read_back : (∀ v, read (render v) = some (meaning v)) ∧
    (∀ v w, render v = render w ↔ meaning v = meaning w) ∧ ∀ v, Text.Visible (render v) := by
  refine ⟨read_render, fun v w => ⟨fun h => ?_, render_eq_of_meaning_eq⟩, visible_render⟩
  have hread : some (meaning v) = some (meaning w) := by rw [← read_render v, ← read_render w, h]
  exact Option.some.inj hread

/-- A quote and a control character in a key and marks in a text do not end them. -/
theorem sample_literal :
    render (.object [("a\"\x01", .list [.null, .int (-7), .text ", ]"])]) =
        "\x7b\"a\\\"\\u0001\": [None, -7, \", ]\"]\x7d" ∧
      read "\x7b\"a\\\"\\u0001\": [None, -7, \", ]\"]\x7d" =
        some (.dictionary [("a\"\x01", .list [.none, .number "-7", .text ", ]"])]) := by
  have hrender : render (.object [("a\"\x01", .list [.null, .int (-7), .text ", ]"])]) =
      "\x7b\"a\\\"\\u0001\": [None, -7, \", ]\"]\x7d" := by decide +kernel
  have hnumber : (JsonNumber.integer (-7)).render = "-7" := by decide +kernel
  have hread := literals_read_back.1 (.object [("a\"\x01", .list [.null, .int (-7), .text ", ]"])])
  rw [hrender] at hread
  simp only [meaning, meanings, fieldMeanings, Json.int, hnumber] at hread
  exact ⟨hrender, hread⟩

end Literal

end OntologyCompiler
