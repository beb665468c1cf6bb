import Predictive.Text.Blank
import Predictive.Text.Layout

/-!
# Texts cut at a character

Parts that are joined by a character and have it nowhere inside are found again
where the text is cut at the character. Words have no blank inside, whatever
other characters they have.
-/

namespace Predictive.Text

/-- What stands between the occurrences of a character. -/
def cutAt (c : Char) (s : String) : List String := (s.toList.splitOn c).map String.ofList

/-- The lines of a text, where nothing after the last break is not a line. -/
def lines (s : String) : List String :=
  let parts := cutAt '\n' s
  if parts.getLast? = some "" then parts.dropLast else parts

example : cutAt ' ' "a  b" = ["a", "", "b"] := by decide

example : lines "" = [] ∧ lines "a\n\n" = ["a", ""] := by decide

/-- Not empty, and without blanks. -/
def IsWord (s : String) : Prop := s ≠ "" ∧ ∀ c ∈ s.toList, isBlank c = false

instance (s : String) : Decidable (IsWord s) :=
  decidable_of_iff (s ≠ "" ∧ (s.toList.all fun c => !isBlank c) = true) (by simp [IsWord])

theorem IsWord.not_mem {s : String} (h : IsWord s) {c : Char} (hc : isBlank c = true) : c ∉ s.toList := by
  intro hmem
  rw [h.2 c hmem] at hc
  cases hc

theorem IsWord.toList_ne_nil {s : String} (h : IsWord s) : s.toList ≠ [] := fun e => h.1 (String.toList_eq_nil_iff.mp e)

/-- What fills the column in front of a word is blank. -/
theorem IsWord.dropWhile_padLeft {s : String} (h : IsWord s) (width : Nat) (cs : List Char) :
    ((padLeft width s).toList ++ cs).dropWhile isBlank = s.toList ++ cs := by
  have hblanks : ∀ c ∈ List.replicate (width - s.length) ' ', isBlank c = true := by
    intro c hc
    rw [List.eq_of_mem_replicate hc]
    decide
  rw [toList_padLeft, List.append_assoc, List.dropWhile_append_of_pos hblanks,
    dropWhile_of_no_blank h.2 h.toList_ne_nil]

theorem not_mem_padLeft {c : Char} (hc : c ≠ ' ') {s : String} (h : c ∉ s.toList) (width : Nat) :
    c ∉ (padLeft width s).toList := by
  simp [toList_padLeft, hc, h]

/-! ## Joined parts -/

theorem not_mem_intercalate {c : Char} {sep : String} (hsep : c ∉ sep.toList) :
    ∀ {parts : List String}, (∀ p ∈ parts, c ∉ p.toList) → c ∉ (sep.intercalate parts).toList
  | [], _ => by simp
  | [p], h => by simpa using h p List.mem_cons_self
  | p :: q :: parts, h => by
    have ih : c ∉ (sep.intercalate (q :: parts)).toList :=
      not_mem_intercalate hsep fun r hr => h r (List.mem_cons_of_mem p hr)
    rw [String.intercalate_cons_cons, String.toList_append, String.toList_append, List.mem_append, List.mem_append]
    simp only [h p List.mem_cons_self, hsep, ih, or_self, not_false_eq_true]

theorem cutAt_intercalate {c : Char} {parts : List String} (h : ∀ p ∈ parts, c ∉ p.toList) (hne : parts ≠ []) :
    cutAt c ((String.singleton c).intercalate parts) = parts := by
  unfold cutAt
  rw [String.toList_intercalate, String.toList_singleton, List.splitOn_intercalate]
  · simp
  · intro p hp
    obtain ⟨s, hs, rfl⟩ := List.mem_map.mp hp
    exact h s hs
  · simpa using hne

theorem cutAt_unwords {parts : List String} (h : ∀ p ∈ parts, ' ' ∉ p.toList) (hne : parts ≠ []) :
    cutAt ' ' (unwords parts) = parts :=
  cutAt_intercalate h hne

theorem cutAt_unlines {parts : List String} (h : ∀ p ∈ parts, '\n' ∉ p.toList) (hne : parts ≠ []) :
    cutAt '\n' (unlines parts) = parts :=
  cutAt_intercalate h hne

theorem lines_unlines {parts : List String} (h : ∀ p ∈ parts, '\n' ∉ p.toList) (hne : ∀ p ∈ parts, p ≠ "") :
    lines (unlines parts) = parts := by
  cases parts with
  | nil => rfl
  | cons p parts =>
    have hlast : (p :: parts).getLast? ≠ some "" := fun e => hne "" (List.mem_of_getLast? e) rfl
    unfold lines
    rw [cutAt_unlines h (List.cons_ne_nil p parts)]
    exact if_neg hlast

theorem unlines_flatMap {α : Type} {f : α → List String} {parts : List α} (h : ∀ p ∈ parts, f p ≠ []) :
    unlines (parts.map fun p => unlines (f p)) = unlines (parts.flatMap f) := by
  induction parts with
  | nil => rfl
  | cons p parts ih =>
    obtain ⟨hp, hparts⟩ := List.forall_mem_cons.mp h
    by_cases hnil : parts = []
    · simp [hnil, unlines]
    · obtain ⟨q, hq⟩ := List.exists_mem_of_ne_nil parts hnil
      have hlines : parts.flatMap f ≠ [] := fun e => hparts q hq (List.flatMap_eq_nil_iff.mp e q hq)
      have hmap : parts.map (fun p => unlines (f p)) ≠ [] := by simpa using hnil
      have ih := ih hparts
      unfold unlines at *
      rw [List.map_cons, String.intercalate_cons_of_ne_nil hmap, ih, List.flatMap_cons,
        String.intercalate_append_of_ne_nil hp hlines]

theorem not_mem_unwords {c : Char} (hc : c ≠ ' ') {parts : List String} (h : ∀ p ∈ parts, c ∉ p.toList) :
    c ∉ (unwords parts).toList :=
  not_mem_intercalate (by simpa using hc) h

end Predictive.Text
