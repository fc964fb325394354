import OntologyCompiler.Backend.Literal
import OntologyCompiler.Proofs.Fingerprint.Lines
import OntologyCompiler.Proofs.Literals.Numbers

/-!
# Control characters in literals

No literal has a character below U+0020: in texts they are escaped, and neither numbers nor names nor marks have any.
So a literal is always on one line.
-/

namespace OntologyCompiler

/-- What holds of a list if it holds of its items, and of an object if it holds of the values of its fields, holds of
every value if it holds of those without parts. -/
theorem Json.inductionOn {motive : Json → Prop} (v : Json) (null : motive .null)
    (boolean : ∀ b, motive (.boolean b)) (number : ∀ n, motive (.number n)) (text : ∀ s, motive (.text s))
    (list : ∀ items, (∀ a ∈ items, motive a) → motive (.list items))
    (object : ∀ fields, (∀ f ∈ fields, motive f.2) → motive (.object fields)) : motive v :=
  @Json.rec motive (fun items => ∀ a ∈ items, motive a) (fun fields => ∀ f ∈ fields, motive f.2)
    (fun f => motive f.2) null boolean number text list object
    nofun (fun _ _ ha hrest => List.forall_mem_cons.mpr ⟨ha, hrest⟩)
    nofun (fun _ _ hf hrest => List.forall_mem_cons.mpr ⟨hf, hrest⟩) (fun _ _ ha => ha) v

namespace Text

/-- No character is below U+0020. -/
def Visible (s : String) : Prop := ∀ c ∈ s.toList, 32 ≤ c.toNat

variable {s t separator : String} {parts : List String}

instance (s : String) : Decidable (Visible s) :=
  decidable_of_iff (s.toList.all (32 ≤ ·.toNat) = true) (by simp [Visible])

/-- Texts without control characters have none when they are put together. -/
theorem Visible.append (hs : Visible s) (ht : Visible t) : Visible (s ++ t) := by
  rw [Visible, String.toList_append]
  exact List.forall_mem_append.mpr ⟨hs, ht⟩

/-- Texts without control characters have none when they are joined. -/
theorem Visible.join (hseparator : Visible separator) (hparts : ∀ part ∈ parts, Visible part) :
    Visible (join separator parts) := by
  induction parts with
  | nil => exact nofun
  | cons part parts ih =>
    obtain ⟨hpart, hrest⟩ := List.forall_mem_cons.mp hparts
    cases parts with
    | nil => exact hpart
    | cons next parts => exact hpart.append (hseparator.append (ih hrest))

/-- A text without control characters is on one line. -/
theorem Visible.lineFeed_notMem (h : Visible s) : '\n' ∉ s.toList := fun hmem => absurd (h _ hmem) (by decide)

end Text

/-- A number has no control characters. -/
theorem JsonNumber.visible_render (n : JsonNumber) : Text.Visible n.render := by
  intro c hc
  have hchar := Literal.isNumberChar_of_isNumber n.isNumber_render c hc
  simp only [Literal.isNumberChar, Bool.or_eq_true, beq_iff_eq] at hchar
  rcases hchar with ((((hdigit | rfl) | rfl) | rfl) | rfl) | rfl
  · simp only [Char.isDigit, Bool.and_eq_true, decide_eq_true_eq, ge_iff_le, UInt32.le_iff_toNat_le] at hdigit
    exact Nat.le_trans (by decide) hdigit.1
  all_goals decide

namespace Json

/-- The text between quotes has an opening and a closing quote. -/
theorem toList_quote (s : String) : (Json.quote s).toList = '"' :: (s.toList.flatMap Json.escapeChar ++ ['"']) :=
  String.toList_ofList

/-- The letters that stand for characters behind a backslash. -/
def letters : List (Char × Char) :=
  [('"', '"'), ('\\', '\\'), ('n', '\n'), ('r', '\r'), ('t', '\t'), ('b', Char.ofNat 8), ('f', Char.ofNat 12)]

/-- The three ways to write a character between quotes: as itself, by a letter, or by its code point. -/
inductive Escaped : Char → List Char → Prop
  | self {c : Char} (hquote : c ≠ '"') (hbackslash : c ≠ '\\') (hvisible : 32 ≤ c.toNat) : Escaped c [c]
  | letter {c d : Char} (hletter : (d, c) ∈ letters) : Escaped c ['\\', d]
  | codePoint {c : Char} (hcontrol : c.toNat < 32) :
    Escaped c ['\\', 'u', '0', '0', hexDigit (c.toNat / 16), hexDigit (c.toNat % 16)]

/-- A character is written in one of the three ways. -/
theorem escaped_escapeChar (c : Char) : Escaped c (escapeChar c) := by
  have hofNat {n : Nat} (h : c.toNat = n) : c = Char.ofNat n := by rw [← h, Char.ofNat_toNat]
  unfold escapeChar
  split_ifs with hquote hbackslash hfeed hreturn htab hbackspace hpage hcontrol
  · exact .letter (by simp [hquote, letters])
  · exact .letter (by simp [hbackslash, letters])
  · exact .letter (by simp [hfeed, letters])
  · exact .letter (by simp [hreturn, letters])
  · exact .letter (by simp [htab, letters])
  · exact .letter (by simp [hofNat hbackspace, letters])
  · exact .letter (by simp [hofNat hpage, letters])
  · exact .codePoint hcontrol
  · exact .self hquote hbackslash (Nat.le_of_not_lt hcontrol)

/-- What is written for a character has no control characters. -/
theorem Escaped.visible {c : Char} {cs : List Char} (h : Escaped c cs) : ∀ d ∈ cs, 32 ≤ d.toNat := by
  have hletters : ∀ e ∈ letters, 32 ≤ e.1.toNat := by decide
  have hdigit : ∀ n < 16, 32 ≤ (hexDigit n).toNat := by decide
  have hmarks : 32 ≤ '\\'.toNat ∧ 32 ≤ 'u'.toNat ∧ 32 ≤ '0'.toNat := by decide
  obtain ⟨hbackslash, hu, hzero⟩ := hmarks
  cases h with
  | self _ _ hvisible => exact List.forall_mem_singleton.mpr hvisible
  | letter hletter => exact List.forall_mem_cons.mpr ⟨hbackslash, List.forall_mem_singleton.mpr (hletters _ hletter)⟩
  | codePoint hcontrol =>
    simp only [List.forall_mem_cons]
    exact ⟨hbackslash, hu, hzero, hzero, hdigit _ (by omega), hdigit _ (by omega), nofun⟩

/-- The control characters of a text are escaped. -/
theorem visible_quote (s : String) : Text.Visible (quote s) := by
  rw [Text.Visible, toList_quote]
  have hchars : ∀ d ∈ s.toList.flatMap escapeChar, 32 ≤ d.toNat := by
    intro d hd
    obtain ⟨c, -, hd⟩ := List.mem_flatMap.mp hd
    exact (escaped_escapeChar c).visible d hd
  have hmark : 32 ≤ '"'.toNat := by decide
  exact List.forall_mem_cons.mpr ⟨hmark, List.forall_mem_append.mpr ⟨hchars, List.forall_mem_singleton.mpr hmark⟩⟩

end Json

namespace Literal

/-- A key and its value with a colon between them. -/
def renderField (field : String × Json) : String := Json.quote field.1 ++ (": " ++ render field.2)

/-- The items of a list are joined by commas. -/
theorem renderItems_eq_join (items : List Json) : renderItems items = Text.join ", " (items.map render) := by
  induction items with
  | nil => rfl
  | cons a rest ih =>
    cases rest with
    | nil => rfl
    | cons b rest => rw [renderItems, ih]; rfl

/-- The items of a dictionary are joined by commas. -/
theorem renderFields_eq_join (fields : List (String × Json)) :
    renderFields fields = Text.join ", " (fields.map renderField) := by
  induction fields with
  | nil => rfl
  | cons f rest ih =>
    cases rest with
    | nil => rfl
    | cons g rest =>
      rw [renderFields, ih]
      simp only [List.map_cons, Text.join, renderField, String.append_assoc]

/-- A literal has no control characters. -/
theorem visible_render (v : Json) : Text.Visible (render v) := by
  induction v using Json.inductionOn with
  | null => exact (by decide : Text.Visible "None")
  | boolean b =>
    cases b with
    | true => exact (by decide : Text.Visible "True")
    | false => exact (by decide : Text.Visible "False")
  | number n => exact n.visible_render
  | text s => exact Json.visible_quote s
  | list items ih =>
    rw [render, renderItems_eq_join]
    have hitems := Text.Visible.join (by decide : Text.Visible ", ") (List.forall_mem_map.mpr ih)
    exact (by decide : Text.Visible "[").append (hitems.append (by decide))
  | object fields ih =>
    rw [render, renderFields_eq_join]
    have hfields : ∀ part ∈ fields.map renderField, Text.Visible part := List.forall_mem_map.mpr fun f hf =>
      (Json.visible_quote f.1).append ((by decide : Text.Visible ": ").append (ih f hf))
    exact (by decide : Text.Visible "\x7b").append ((Text.Visible.join (by decide) hfields).append (by decide))

end Literal

end OntologyCompiler
