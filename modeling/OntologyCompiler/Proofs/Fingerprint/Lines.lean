import Mathlib.Data.List.Perm.Basic
import OntologyCompiler.Proofs.Loading.Names

/-!
# Texts of closed lines

Each line of a text is closed by a line feed. So the lines can be read back if none of them has a line feed itself,
and lines can change places without a trace if any two of them read the same in either order.
-/

namespace OntologyCompiler

/-- Parts of concatenations that agree and have the same lengths are the same. -/
theorem eq_of_flatMap_eq {α β : Type} {l : List α} {f g : α → List β} (hlength : ∀ a ∈ l, (f a).length = (g a).length)
    (h : l.flatMap f = l.flatMap g) : ∀ a ∈ l, f a = g a := by
  induction l with
  | nil => exact nofun
  | cons a l ih =>
    obtain ⟨ha, hl⟩ := List.forall_mem_cons.mp hlength
    rw [List.flatMap_cons, List.flatMap_cons] at h
    obtain ⟨hfirst, hrest⟩ := List.append_inj h ha
    exact List.forall_mem_cons.mpr ⟨hfirst, ih hl hrest⟩

/-- Items that have the same images in order have the same images under maps that tell no more of them. -/
theorem map_eq_map_of_imp {α β γ δ : Type} {f : α → γ} {f' : β → γ} {g : α → δ} {g' : β → δ} {l : List α} {l' : List β}
    (h : l.map f = l'.map f') (himp : ∀ a ∈ l, ∀ b ∈ l', f a = f' b → g a = g' b) : l.map g = l'.map g' := by
  induction l generalizing l' with
  | nil =>
    rw [List.map_nil, eq_comm, List.map_eq_nil_iff] at h
    rw [h, List.map_nil, List.map_nil]
  | cons a l ih =>
    cases l' with
    | nil => cases h
    | cons b l' =>
      obtain ⟨hfirst, hrest⟩ := List.cons.inj h
      rw [List.map_cons, List.map_cons, himp a List.mem_cons_self b List.mem_cons_self hfirst, ih hrest]
      exact fun x hx y hy => himp x (List.mem_cons_of_mem _ hx) y (List.mem_cons_of_mem _ hy)

namespace Text

/-- The part in front of the first separator has none. -/
theorem notMem_of_cut? {separator : Char} {cs a b : List Char} (h : cut? separator cs = some (a, b)) :
    separator ∉ a := by
  induction cs generalizing a with
  | nil => cases h
  | cons c cs ih =>
    unfold cut? at h
    split at h
    next =>
      obtain ⟨rfl, -⟩ := Prod.mk.inj (Option.some.inj h)
      exact List.not_mem_nil
    next hne =>
      obtain ⟨⟨a', b'⟩, hcut, heq⟩ := Option.map_eq_some_iff.mp h
      obtain ⟨rfl, rfl⟩ := Prod.mk.inj heq
      exact List.not_mem_cons_of_ne_of_not_mem (Ne.symm hne) (ih hcut)

/-- A text splits at the first separator in one way. -/
theorem append_separator_inj {separator : Char} {a b u v : List Char} (ha : separator ∉ a) (hb : separator ∉ b)
    (h : a ++ separator :: u = b ++ separator :: v) : a = b ∧ u = v := by
  have hcut := congrArg (cut? separator) h
  rw [cut?_append ha, cut?_append hb] at hcut
  exact Prod.mk.inj (Option.some.inj hcut)

/-- The rest behind a start that stands in front. -/
theorem dropStart?_append (start cs : List Char) : dropStart? start (start ++ cs) = some cs := by
  induction start with
  | nil => rfl
  | cons c start ih => rw [List.cons_append, dropStart?, if_pos rfl, ih]

/-- What is in neither of two texts is not in them put together. -/
theorem notMem_append {c : Char} {s t : String} (hs : c ∉ s.toList) (ht : c ∉ t.toList) : c ∉ (s ++ t).toList := by
  rw [String.toList_append]
  exact List.not_mem_append hs ht

/-- What is in no part and not in the separator is not in the joined text. -/
theorem notMem_join {c : Char} {separator : String} {parts : List String} (hseparator : c ∉ separator.toList)
    (hparts : ∀ part ∈ parts, c ∉ part.toList) : c ∉ (join separator parts).toList := by
  induction parts with
  | nil => exact List.not_mem_nil
  | cons part parts ih =>
    obtain ⟨hpart, hrest⟩ := List.forall_mem_cons.mp hparts
    cases parts with
    | nil => exact hpart
    | cons next parts => exact notMem_append hpart (notMem_append hseparator (ih hrest))

variable {l l' : List String}

/-- The characters of closed lines. -/
theorem toList_closeLines (lines : List String) :
    (closeLines lines).toList = lines.flatMap fun line => line.toList ++ ['\n'] := by
  induction lines with
  | nil => rfl
  | cons line lines ih =>
    change (line ++ ("\n" ++ closeLines lines)).toList = _
    rw [String.toList_append, String.toList_append, ih, List.flatMap_cons, List.append_assoc]
    rfl

/-- Lines may be closed in parts. -/
theorem closeLines_append (l l' : List String) : closeLines (l ++ l') = closeLines l ++ closeLines l' := by
  apply String.toList_injective
  rw [String.toList_append, toList_closeLines, toList_closeLines, toList_closeLines, List.flatMap_append]

/-- Lines may be closed item by item. -/
theorem toList_closeLines_flatMap {α : Type} (lines : α → List String) (items : List α) :
    (closeLines (items.flatMap lines)).toList = items.flatMap fun item => (closeLines (lines item)).toList := by
  simp only [toList_closeLines, List.flatMap_assoc]

/-- Texts with the same lines in front are equal exactly if the rests are. -/
theorem closeLines_append_left_inj {first : List String} :
    closeLines (first ++ l) = closeLines (first ++ l') ↔ closeLines l = closeLines l' := by
  simp only [← String.toList_inj, closeLines_append, String.toList_append, List.append_cancel_left_eq]

/-- Texts with the same lines at the end are equal exactly if what is in front is. -/
theorem closeLines_append_right_inj {last : List String} :
    closeLines (l ++ last) = closeLines (l' ++ last) ↔ closeLines l = closeLines l' := by
  simp only [← String.toList_inj, closeLines_append, String.toList_append, List.append_cancel_right_eq]

/-- The order of lines makes no difference to the length of the text. -/
theorem length_closeLines_eq_of_perm (h : l.Perm l') :
    (closeLines l).toList.length = (closeLines l').toList.length := by
  rw [toList_closeLines, toList_closeLines]
  exact (h.flatMap_right _).length_eq

/-- The order of lines makes no difference if any two of them read the same in either order. -/
theorem closeLines_eq_of_perm (h : l.Perm l') (hcommute : ∀ a ∈ l, ∀ b ∈ l, closeLines [a, b] = closeLines [b, a]) :
    closeLines l = closeLines l' := by
  induction h with
  | nil => rfl
  | cons line _ ih =>
    have hrest := ih fun a ha b hb => hcommute a (List.mem_cons_of_mem _ ha) b (List.mem_cons_of_mem _ hb)
    exact (@closeLines_append_left_inj _ _ [line]).mpr hrest
  | @swap a b rest =>
    have hswap := hcommute b List.mem_cons_self a (List.mem_cons_of_mem _ List.mem_cons_self)
    exact (@closeLines_append_right_inj [b, a] [a, b] rest).mpr hswap
  | trans hfirst _ ih ih' =>
    refine (ih hcommute).trans (ih' fun a ha b hb => ?_)
    exact hcommute a (hfirst.mem_iff.mpr ha) b (hfirst.mem_iff.mpr hb)

/-- Two lines in front of texts that agree read the same in either order if the texts have them in either order. -/
theorem closeLines_swap_of_eq {a b : String} (h : closeLines (a :: b :: l) = closeLines (b :: a :: l')) :
    closeLines [a, b] = closeLines [b, a] := by
  have hsplit (a b : String) (l : List String) : closeLines (a :: b :: l) = closeLines [a, b] ++ closeLines l :=
    closeLines_append [a, b] l
  have hchars := congrArg String.toList ((hsplit a b l).symm.trans (h.trans (hsplit b a l')))
  rw [String.toList_append, String.toList_append] at hchars
  exact String.toList_injective (List.append_inj hchars (length_closeLines_eq_of_perm (.swap b a []))).1

/-- Lines without line feeds can be read back. -/
theorem closeLines_injOn (hl : ∀ line ∈ l, '\n' ∉ line.toList) (hl' : ∀ line ∈ l', '\n' ∉ line.toList)
    (h : closeLines l = closeLines l') : l = l' := by
  rw [← String.toList_inj, toList_closeLines, toList_closeLines] at h
  induction l generalizing l' with
  | nil =>
    cases l' with
    | nil => rfl
    | cons line' l' => simp at h
  | cons line l ih =>
    cases l' with
    | nil => simp at h
    | cons line' l' =>
      obtain ⟨hline, hl⟩ := List.forall_mem_cons.mp hl
      obtain ⟨hline', hl'⟩ := List.forall_mem_cons.mp hl'
      simp only [List.flatMap_cons, List.append_assoc, List.singleton_append] at h
      obtain ⟨hfirst, hrest⟩ := append_separator_inj hline hline' h
      rw [String.toList_injective hfirst, ih hl hl' hrest]

end Text

end OntologyCompiler
