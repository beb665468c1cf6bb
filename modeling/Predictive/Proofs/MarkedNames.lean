import Predictive.Display.Grid
import Predictive.Display.Listing
import Predictive.Display.Summary
import Predictive.Text.Cut
import Predictive.Text.TexRows

/-!
# Names in LaTeX

Names are escaped one by one and joined, and then every ε in the joined text is
replaced by its mark. What joins them has no ε, so every escaped name could as
well be marked by itself. A marked name is fielded: it has no ampersand and no
row break of its own, and it has no blank that was not in the name.
-/

namespace Predictive

namespace Text

theorem replaceChar_append (c : Char) (mark s t : String) :
    replaceChar c mark (s ++ t) = replaceChar c mark s ++ replaceChar c mark t := by
  simp [replaceChar]

theorem replaceChar_of_not_mem {c : Char} {s : String} (h : c ∉ s.toList) (mark : String) :
    replaceChar c mark s = s := by
  have key : ∀ cs : List Char, c ∉ cs → (cs.flatMap fun d => if d = c then mark.toList else [d]) = cs := by
    intro cs hcs
    induction cs with
    | nil => rfl
    | cons d cs ih =>
      simp only [List.mem_cons, not_or] at hcs
      rw [List.flatMap_cons, ih hcs.2, if_neg (Ne.symm hcs.1)]
      rfl
  rw [replaceChar, key s.toList h, String.ofList_toList]

theorem replaceChar_intercalate {c : Char} {sep : String} (h : c ∉ sep.toList) (mark : String)
    (parts : List String) :
    replaceChar c mark (sep.intercalate parts) = sep.intercalate (parts.map (replaceChar c mark)) := by
  induction parts with
  | nil => simp [replaceChar]
  | cons p parts ih =>
    cases parts with
    | nil => simp
    | cons q parts =>
      rw [String.intercalate_cons_cons, replaceChar_append, replaceChar_append, replaceChar_of_not_mem h, ih]
      simp [String.intercalate_cons_cons]

/-! ## Characters -/

/-- The code of a character before another one, with a mark in place of ε. -/
def markedCode (mark : String) (c : Char) (next : Option Char) : List Char :=
  if c = 'ε' then mark.toList
  else if c = '-' ∧ next = some '-' then "-\x7b\x7d".toList
  else texChar c

def markedCodes (mark : String) : List Char → List Char
  | [] => []
  | c :: cs => markedCode mark c cs.head? ++ markedCodes mark cs

/-- A name escaped, with a mark in place of ε. -/
def markedBy (escape : String → String) (mark name : String) : String := replaceChar 'ε' mark (escape name)

def texMarked (mark name : String) : String := markedBy tex mark name

theorem not_mem_texChar {c : Char} (h : c ≠ 'ε') : 'ε' ∉ texChar c := by
  rcases texChar_eq c with ⟨code, hcode, e⟩ | ⟨_, e⟩
  · rw [e]
    exact (by decide : ∀ p ∈ texCodes, 'ε' ∉ p.2.toList) (c, code) hcode
  · rw [e]
    simpa using Ne.symm h

theorem toList_texMarked (mark name : String) : (texMarked mark name).toList = markedCodes mark name.toList := by
  have hcode : ∀ cs : List Char, 'ε' ∉ cs → (replaceChar 'ε' mark (String.ofList cs)).toList = cs := by
    intro cs h
    rw [replaceChar_of_not_mem (by simpa using h), String.toList_ofList]
  have key : ∀ cs, (replaceChar 'ε' mark (String.ofList (texChars cs))).toList = markedCodes mark cs := by
    intro cs
    fun_induction texChars cs with
    | case1 => simp [replaceChar, markedCodes]
    | case2 cs ih =>
      rw [String.ofList_append, replaceChar_append, String.toList_append, ih, hcode _ (by split <;> decide)]
      simp [markedCodes, markedCode, texChar, texCodes]
    | case3 c cs hc ih =>
      rw [String.ofList_append, replaceChar_append, String.toList_append, ih, markedCodes, markedCode]
      by_cases he : c = 'ε'
      · subst he
        simp [replaceChar, texChar, texCodes]
      · rw [hcode _ (not_mem_texChar he), if_neg he, if_neg fun h => hc h.1]
  rw [texMarked, markedBy, tex, key]

theorem texMarked_self (name : String) : texMarked "ε" name = tex name := by
  have hsame : (fun d : Char => if d = 'ε' then "ε".toList else [d]) = fun d => [d] := by
    funext d
    split
    · subst d
      rfl
    · rfl
  rw [texMarked, markedBy, replaceChar, hsame, List.flatMap_singleton', String.ofList_toList]

theorem not_mem_of_no_blank {x : Char} (hx : isBlank x = true) {cs : List Char}
    (h : (cs.all fun c => !isBlank c) = true) : x ∉ cs := by
  intro hmem
  have hblank := List.all_eq_true.mp h x hmem
  rw [hx] at hblank
  cases hblank

theorem not_mem_markedCodes {mark : String} {x : Char} (hmark : x ∉ mark.toList) (hx : isBlank x = true)
    {cs : List Char} (h : x ∉ cs) : x ∉ markedCodes mark cs := by
  have hcodes : ∀ p ∈ texCodes, (p.2.toList.all fun c => !isBlank c) = true := by decide
  fun_induction markedCodes mark cs with
  | case1 => exact h
  | case2 c cs ih =>
    simp only [List.mem_cons, not_or] at h
    rw [List.mem_append, not_or]
    refine ⟨?_, ih h.2⟩
    unfold markedCode
    split
    · exact hmark
    split
    · exact not_mem_of_no_blank hx (by decide)
    rcases texChar_eq c with ⟨code, hcode, e⟩ | ⟨_, e⟩
    · rw [e]
      exact not_mem_of_no_blank hx (hcodes (c, code) hcode)
    · simpa [e] using h.1

theorem not_mem_texMarked {mark : String} {x : Char} (hmark : x ∉ mark.toList) (hx : isBlank x = true)
    {name : String} (h : x ∉ name.toList) : x ∉ (texMarked mark name).toList := by
  rw [toList_texMarked]
  exact not_mem_markedCodes hmark hx h

theorem fielded_markedCode {mark : String} (hmark : Fielded 0 mark) (c : Char) (next : Option Char) :
    Fielded 0 (String.ofList (markedCode mark c next)) := by
  unfold markedCode
  split
  · rwa [String.ofList_toList]
  · split
    · decide
    · rcases texChar_eq c with ⟨code, hcode, e⟩ | ⟨hc, e⟩
      · rw [e, String.ofList_toList]
        exact (by decide : ∀ p ∈ texCodes, Fielded 0 p.2) (c, code) hcode
      · rw [e]
        refine Fielded.singleton fun h => ?_
        simp only [List.mem_cons, List.not_mem_nil, or_false] at h
        rcases h with rfl | rfl | rfl | rfl <;> exact absurd hc (by decide)

theorem fielded_texMarked {mark : String} (hmark : Fielded 0 mark) (name : String) : Fielded 0 (texMarked mark name) := by
  have e : texMarked mark name = String.ofList (markedCodes mark name.toList) := by
    rw [← toList_texMarked, String.ofList_toList]
  rw [e]
  fun_induction markedCodes mark name.toList with
  | case1 => decide
  | case2 c cs ih =>
    rw [String.ofList_append]
    exact (fielded_markedCode hmark c cs.head?).append ih

end Text

/-! ## Joined names -/

open Text

def NamedRule.arrow (aligned : Bool) : String := if aligned then " & \\rightarrow &" else " \\rightarrow "

def NamedRule.markedRight (right : List String) : String := " \\ ".intercalate (right.map (texMarked "\\epsilon"))

theorem NamedRule.replaceChar_rightLatex (right : List String) :
    replaceChar 'ε' "\\epsilon" (rightLatexBy tex right) = markedRight right := by
  unfold rightLatexBy markedRight
  rw [replaceChar_intercalate (by decide), List.map_map]
  rfl

theorem NamedRule.latex_eq {r : NamedRule} (hr : r.rights ≠ []) (aligned : Bool) :
    r.latexBy tex aligned =
      texMarked "\\epsilon" r.left ++ arrow aligned ++ " \\mid ".intercalate (r.rights.map markedRight) := by
  have harrow : 'ε' ∉ (arrow aligned).toList := by cases aligned <;> decide
  have hrights : (r.rights.map (rightLatexBy tex)).map (replaceChar 'ε' "\\epsilon") = r.rights.map markedRight := by
    rw [List.map_map]
    exact List.map_congr_left fun right _ => replaceChar_rightLatex right
  unfold latexBy
  rw [if_neg (by simpa using hr)]
  show replaceChar 'ε' "\\epsilon" (tex r.left ++ arrow aligned ++ _) = _
  rw [replaceChar_append, replaceChar_append, replaceChar_of_not_mem harrow, replaceChar_intercalate (by decide), hrights]
  rfl

theorem SummaryRow.setLatex_eq (names : List String) :
    setLatexBy tex names = "\\ ".intercalate (names.map (texMarked "$\\epsilon$")) := by
  unfold setLatexBy
  rw [replaceChar_intercalate (by decide), List.map_map]
  rfl

end Predictive
