import ChainIndex.Text.Split
import Mathlib.Data.List.Basic

/-!
Texts cut at a separator. The parts, with separators between them, are the text, and parts without separators
are found again.
-/
namespace ChainIndex
namespace Text

variable {sep : Char}

theorem splitAll_ne_nil (sep : Char) (cs : List Char) : splitAll sep cs ≠ [] := by
  induction cs with
  | nil => simp [splitAll]
  | cons c rest ih =>
    unfold splitAll
    split
    · simp
    · split <;> simp

/-- A separator between two texts parts them, whatever parts they have themselves. -/
theorem splitAll_append_sep (before rest : List Char) :
    splitAll sep (before ++ sep :: rest) = splitAll sep before ++ splitAll sep rest := by
  induction before with
  | nil => simp [splitAll]
  | cons c before ih =>
    rw [List.cons_append, splitAll, splitAll, ih]
    cases hb : splitAll sep before with
    | nil => exact absurd hb (splitAll_ne_nil sep before)
    | cons part parts => split <;> rfl

theorem splitAll_of_not_mem {cs : List Char} (h : sep ∉ cs) : splitAll sep cs = [cs] := by
  induction cs with
  | nil => rfl
  | cons c rest ih =>
    obtain ⟨hc, hrest⟩ := not_or.1 (mt List.mem_cons.2 h)
    rw [splitAll, if_neg (Ne.symm hc), ih hrest]

theorem splitAll_append {before : List Char} (h : sep ∉ before) (rest : List Char) :
    splitAll sep (before ++ sep :: rest) = before :: splitAll sep rest := by
  rw [splitAll_append_sep, splitAll_of_not_mem h, List.singleton_append]

/-- The parts, with separators between them, are the text. -/
theorem intercalate_splitAll (sep : Char) (cs : List Char) : List.intercalate [sep] (splitAll sep cs) = cs := by
  induction cs with
  | nil => rfl
  | cons c rest ih =>
    unfold splitAll
    cases hr : splitAll sep rest with
    | nil => exact absurd hr (splitAll_ne_nil sep rest)
    | cons part parts =>
      rw [hr] at ih
      split
      · next hc => rw [List.intercalate, List.intersperse_cons_cons, ← ih, hc]; rfl
      · cases parts with
        | nil => simpa [List.intercalate] using ih
        | cons next more =>
          rw [List.intercalate, List.intersperse_cons_cons] at ih ⊢
          simpa using ih

/-- The parts tell the text. -/
theorem splitAll_injective (sep : Char) : Function.Injective (splitAll sep) := by
  intro cs other h
  rw [← intercalate_splitAll sep cs, h, intercalate_splitAll]

theorem sep_not_mem_splitAll (cs : List Char) : ∀ part ∈ splitAll sep cs, sep ∉ part := by
  induction cs with
  | nil => simp [splitAll]
  | cons c rest ih =>
    unfold splitAll
    split
    · exact List.forall_mem_cons.2 ⟨List.not_mem_nil, ih⟩
    · next hc =>
      cases hr : splitAll sep rest with
      | nil => simp [Ne.symm hc]
      | cons part parts =>
        rw [hr] at ih
        obtain ⟨hpart, hparts⟩ := List.forall_mem_cons.1 ih
        exact List.forall_mem_cons.2 ⟨fun h => (List.mem_cons.1 h).elim (fun h => hc h.symm) hpart, hparts⟩

/-- Parts without separators are found again. -/
theorem splitAll_intercalate {parts : List (List Char)} (hne : parts ≠ []) (hparts : ∀ part ∈ parts, sep ∉ part) :
    splitAll sep (List.intercalate [sep] parts) = parts := by
  induction parts with
  | nil => exact absurd rfl hne
  | cons part rest ih =>
    obtain ⟨hpart, hrest⟩ := List.forall_mem_cons.1 hparts
    cases rest with
    | nil => rw [List.intercalate_singleton, splitAll_of_not_mem hpart]
    | cons next more =>
      rw [List.intercalate_cons_cons, List.append_assoc, List.singleton_append, splitAll_append hpart,
        ih (List.cons_ne_nil _ _) hrest]

end Text
end ChainIndex
