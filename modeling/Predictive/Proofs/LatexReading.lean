import Predictive.Proofs.LatexRows

/-!
# Reading rules in LaTeX

No code of a character opens another one, and a hyphen cut off from the next one
is told from a bracket, so a marked name has one reading. No marked name is one of
the commands that separate names and sides, so the words of a rule tell its sides.
-/

namespace Predictive

open Text

namespace Text

/-! ## Codes of characters -/

/-- The codes, with the mark that is used in rules. -/
def markCodes : List (Char × String) := ( 'ε', "\\epsilon") :: texCodes

theorem markCodes_prefixFree : ∀ p ∈ markCodes, ∀ q ∈ markCodes,
    p.2.toList <+: q.2.toList ∨ q.2.toList <+: p.2.toList → p = q := by
  decide +kernel

theorem markCodes_head : ∀ p ∈ markCodes, ∃ q ∈ markCodes, p.2.toList.head? = some q.1 := by
  decide +kernel

theorem markCodes_not_braces : ∀ p ∈ markCodes,
    ¬ ("\x7b\x7d".toList <+: p.2.toList) ∧ ¬ (p.2.toList <+: "\x7b\x7d".toList) := by
  decide +kernel

theorem markedCode_eq (c : Char) (next : Option Char) :
    (∃ code, (c, code) ∈ markCodes ∧ markedCode "\\epsilon" c next = code.toList) ∨
      (∀ p ∈ markCodes, p.1 ≠ c) ∧ (markedCode "\\epsilon" c next = [c] ∧ ¬ (c = '-' ∧ next = some '-') ∨
        c = '-' ∧ next = some '-' ∧ markedCode "\\epsilon" c next = "-\x7b\x7d".toList) := by
  unfold markedCode
  by_cases hε : c = 'ε'
  · exact Or.inl ⟨"\\epsilon", by simp [hε, markCodes], by simp [hε]⟩
  rw [if_neg hε]
  by_cases hhyphen : c = '-' ∧ next = some '-'
  · obtain ⟨rfl, rfl⟩ := hhyphen
    exact Or.inr ⟨by decide, Or.inr ⟨rfl, rfl, by simp⟩⟩
  rw [if_neg hhyphen]
  rcases texChar_eq c with ⟨code, hcode, e⟩ | ⟨hc, e⟩
  · exact Or.inl ⟨code, List.mem_cons_of_mem _ hcode, e⟩
  · exact Or.inr ⟨List.forall_mem_cons.mpr ⟨Ne.symm hε, hc⟩, Or.inl ⟨e, hhyphen⟩⟩

theorem markedCode_head (c : Char) (next : Option Char) :
    (∃ code, (c, code) ∈ markCodes ∧ markedCode "\\epsilon" c next = code.toList) ∨
      (∀ p ∈ markCodes, p.1 ≠ c) ∧ ∃ cs, markedCode "\\epsilon" c next = c :: cs := by
  rcases markedCode_eq c next with h | ⟨hc, ⟨h, _⟩ | ⟨rfl, _, h⟩⟩
  · exact Or.inl h
  · exact Or.inr ⟨hc, [], h⟩
  · exact Or.inr ⟨hc, "\x7b\x7d".toList, h⟩

theorem ne_of_code {code : String} {c d : Char} (hcode : (c, code) ∈ markCodes) (hd : ∀ p ∈ markCodes, p.1 ≠ d)
    {as bs : List Char} : code.toList ++ as ≠ d :: bs := by
  intro h
  obtain ⟨q, hq, hhead⟩ := markCodes_head _ hcode
  obtain ⟨cs, hcs⟩ := List.head?_eq_some_iff.mp hhead
  rw [hcs, List.cons_append] at h
  exact hd q hq (List.cons.inj h).1

/-- The first character is told by its code, whatever comes after it. -/
theorem markedCode_append_inj {c d : Char} {next next' : Option Char} {as bs : List Char}
    (h : markedCode "\\epsilon" c next ++ as = markedCode "\\epsilon" d next' ++ bs) : c = d := by
  rcases markedCode_head c next with ⟨code, hcode, hc⟩ | ⟨hc, cs, hcs⟩
  · rcases markedCode_head d next' with ⟨code', hcode', hd⟩ | ⟨hd, ds, hds⟩
    · rw [hc, hd] at h
      have hpre := List.prefix_or_prefix_of_prefix (List.prefix_append code.toList as)
        (h ▸ List.prefix_append code'.toList bs)
      exact congrArg Prod.fst (markCodes_prefixFree _ hcode _ hcode' hpre)
    · rw [hc, hds] at h
      exact absurd h (ne_of_code hcode hd)
  · rcases markedCode_head d next' with ⟨code', hcode', hd⟩ | ⟨hd, ds, hds⟩
    · rw [hcs, hd] at h
      exact absurd h.symm (ne_of_code hcode' hc)
    · rw [hcs, hds] at h
      exact (List.cons.inj h).1

theorem braces_append_ne {cs as : List Char} : "\x7b\x7d".toList ++ as ≠ markedCodes "\\epsilon" cs := by
  cases cs with
  | nil => simp [markedCodes]
  | cons c cs =>
    rw [markedCodes]
    intro h
    rcases markedCode_head c cs.head? with ⟨code, hcode, hc⟩ | ⟨hc, ds, hds⟩
    · rw [hc] at h
      rcases List.prefix_or_prefix_of_prefix (List.prefix_append "\x7b\x7d".toList as)
        (h ▸ List.prefix_append code.toList _) with hpre | hpre
      · exact (markCodes_not_braces _ hcode).1 hpre
      · exact (markCodes_not_braces _ hcode).2 hpre
    · rw [hds] at h
      exact absurd (List.cons.inj h).1 (hc ( '\x7b', "\\\x7b") (by decide))

theorem markedCode_ne_nil (c : Char) (next : Option Char) : markedCode "\\epsilon" c next ≠ [] := by
  rcases markedCode_head c next with ⟨code, hcode, hc⟩ | ⟨_, cs, hcs⟩
  · obtain ⟨q, _, hhead⟩ := markCodes_head _ hcode
    rw [hc]
    intro e
    rw [e] at hhead
    cases hhead
  · rw [hcs]
    exact List.cons_ne_nil c cs

theorem markedCode_hyphen (mark : String) (next : Option Char) :
    markedCode mark '-' next = '-' :: if next = some '-' then "\x7b\x7d".toList else [] := by
  unfold markedCode
  split
  · contradiction
  by_cases hnext : next = some '-' <;> simp [hnext, texChar, texCodes]

theorem markedCode_of_ne_hyphen {mark : String} {c : Char} (hc : c ≠ '-') (next next' : Option Char) :
    markedCode mark c next = markedCode mark c next' := by
  unfold markedCode
  rw [if_neg fun h : c = '-' ∧ next = some '-' => hc h.1, if_neg fun h : c = '-' ∧ next' = some '-' => hc h.1]

/-- Behind a character, its code leaves what the later ones are read from. -/
theorem markedCodes_tail_inj {c : Char} {cs ds : List Char}
    (h : markedCode "\\epsilon" c cs.head? ++ markedCodes "\\epsilon" cs =
      markedCode "\\epsilon" c ds.head? ++ markedCodes "\\epsilon" ds) :
    markedCodes "\\epsilon" cs = markedCodes "\\epsilon" ds := by
  by_cases hc : c = '-'
  · subst hc
    rw [markedCode_hyphen, markedCode_hyphen, List.cons_append, List.cons_append, List.cons.injEq] at h
    -- only a hyphen that is cut off has braces after it
    by_cases hcs : cs.head? = some '-'
    · by_cases hds : ds.head? = some '-'
      · rw [if_pos hcs, if_pos hds] at h
        exact List.append_cancel_left h.2
      · rw [if_pos hcs, if_neg hds] at h
        exact absurd h.2 braces_append_ne
    · by_cases hds : ds.head? = some '-'
      · rw [if_neg hcs, if_pos hds] at h
        exact absurd h.2.symm braces_append_ne
      · rw [if_neg hcs, if_neg hds] at h
        exact h.2
  · rw [markedCode_of_ne_hyphen hc cs.head? ds.head?] at h
    exact List.append_cancel_left h

theorem markedCodes_inj : ∀ {cs ds : List Char}, markedCodes "\\epsilon" cs = markedCodes "\\epsilon" ds → cs = ds
  | [], [], _ => rfl
  | [], d :: ds, h => absurd (List.append_eq_nil_iff.mp h.symm).1 (markedCode_ne_nil d ds.head?)
  | c :: cs, [], h => absurd (List.append_eq_nil_iff.mp h).1 (markedCode_ne_nil c cs.head?)
  | c :: cs, d :: ds, h => by
    rw [markedCodes, markedCodes] at h
    obtain rfl := markedCode_append_inj h
    rw [markedCodes_inj (markedCodes_tail_inj h)]

theorem texMarked_inj {name name' : String} (h : texMarked "\\epsilon" name = texMarked "\\epsilon" name') :
    name = name' := by
  have h := congrArg String.toList h
  rw [toList_texMarked, toList_texMarked] at h
  exact String.toList_inj.mp (markedCodes_inj h)

/-- A text with a backslash in front is not a marked name, unless it opens with a code. -/
theorem texMarked_ne {text : String} (hhead : text.toList.head? = some '\\')
    (hcodes : ∀ p ∈ markCodes, ¬ p.2.toList <+: text.toList) (name : String) : texMarked "\\epsilon" name ≠ text := by
  intro h
  have h := congrArg String.toList h
  rw [toList_texMarked] at h
  cases hname : name.toList with
  | nil =>
    rw [hname, markedCodes] at h
    rw [← h] at hhead
    cases hhead
  | cons c cs =>
    rw [hname, markedCodes] at h
    rcases markedCode_head c cs.head? with ⟨code, hcode, hc⟩ | ⟨hc, ds, hds⟩
    · rw [hc] at h
      exact hcodes _ hcode (h ▸ List.prefix_append _ _)
    · rw [← h, hds] at hhead
      have hbackslash : c = '\\' := by simpa using hhead
      exact hc ( '\\', "\\textbackslash\x7b\x7d") (by decide) hbackslash.symm

/-! ## Words joined by commands -/

theorem mem_intercalate_or {α : Type} {x : α} {sep : List α} : ∀ {parts : List (List α)},
    x ∈ sep.intercalate parts → x ∈ sep ∨ ∃ p ∈ parts, x ∈ p
  | [], h => by simp at h
  | [p], h => Or.inr ⟨p, List.mem_cons_self, by simpa using h⟩
  | p :: q :: parts, h => by
    rw [List.intercalate_cons_cons, List.mem_append, List.mem_append] at h
    rcases h with (h | h) | h
    · exact Or.inr ⟨p, List.mem_cons_self, h⟩
    · exact Or.inl h
    · rcases mem_intercalate_or h with h | ⟨p', hp', h⟩
      · exact Or.inl h
      · exact Or.inr ⟨p', List.mem_cons_of_mem p hp', h⟩

theorem intercalate_ne_nil {α : Type} {sep : List α} {parts : List (List α)} (hne : parts ≠ [])
    (h : ∀ p ∈ parts, p ≠ []) : sep.intercalate parts ≠ [] := by
  obtain ⟨p, parts, rfl⟩ := List.exists_cons_of_ne_nil hne
  have hp := h p List.mem_cons_self
  cases parts <;> simp [List.intercalate_cons_cons, hp]

theorem intercalate_unwords (w : String) {parts : List (List String)} (h : ∀ p ∈ parts, p ≠ []) :
    (" " ++ w ++ " ").intercalate (parts.map unwords) = unwords ([w].intercalate parts) := by
  induction parts with
  | nil => rfl
  | cons p parts ih =>
    obtain ⟨hp, hparts⟩ := List.forall_mem_cons.mp h
    cases parts with
    | nil => simp
    | cons q parts =>
      have hlater : [w].intercalate (q :: parts) ≠ [] := intercalate_ne_nil (List.cons_ne_nil q parts) hparts
      have ih := ih hparts
      rw [List.map_cons] at ih
      rw [List.map_cons, List.map_cons, String.intercalate_cons_cons, ih, List.intercalate_cons_cons]
      unfold unwords
      rw [List.append_assoc, String.intercalate_append_of_ne_nil hp (by simp),
        String.intercalate_append_of_ne_nil (List.cons_ne_nil w []) hlater]
      simp [String.append_assoc]

end Text

namespace NamedRule

def rightWords (right : List String) : List String :=
  ["\\"].intercalate (right.map fun name => [texMarked "\\epsilon" name])

def sideWords (rights : List (List String)) : List String := ["\\mid"].intercalate (rights.map rightWords)

theorem markedRight_eq (right : List String) : markedRight right = unwords (rightWords right) := by
  have hparts : ∀ p ∈ right.map (fun name => [texMarked "\\epsilon" name]), p ≠ [] := by simp
  have hwords := intercalate_unwords "\\" hparts
  unfold markedRight rightWords
  rw [← hwords, List.map_map]
  rfl

theorem rightWords_ne_nil {right : List String} (h : right ≠ []) : rightWords right ≠ [] :=
  intercalate_ne_nil (by simpa using h) (by simp)

theorem markedRights_eq {rights : List (List String)} (h : ∀ right ∈ rights, right ≠ []) :
    " \\mid ".intercalate (rights.map markedRight) = unwords (sideWords rights) := by
  have hparts : ∀ p ∈ rights.map rightWords, p ≠ [] :=
    List.forall_mem_map.mpr fun right hright => rightWords_ne_nil (h right hright)
  have hwords := intercalate_unwords "\\mid" hparts
  unfold sideWords
  rw [← hwords, List.map_map, funext markedRight_eq]
  rfl

theorem mem_rightWords {w : String} {right : List String} (h : w ∈ rightWords right) :
    w = "\\" ∨ ∃ name ∈ right, w = texMarked "\\epsilon" name := by
  rcases mem_intercalate_or h with hw | ⟨p, hp, hw⟩
  · exact Or.inl (List.mem_singleton.mp hw)
  · obtain ⟨name, hname, rfl⟩ := List.mem_map.mp hp
    exact Or.inr ⟨name, hname, List.mem_singleton.mp hw⟩

theorem mem_sideWords {w : String} {rights : List (List String)} (h : w ∈ sideWords rights) :
    w = "\\mid" ∨ w = "\\" ∨ ∃ right ∈ rights, ∃ name ∈ right, w = texMarked "\\epsilon" name := by
  rcases mem_intercalate_or h with hw | ⟨p, hp, hw⟩
  · exact Or.inl (List.mem_singleton.mp hw)
  · obtain ⟨right, hright, rfl⟩ := List.mem_map.mp hp
    rcases mem_rightWords hw with hw | ⟨name, hname, hw⟩
    · exact Or.inr (Or.inl hw)
    · exact Or.inr (Or.inr ⟨right, hright, name, hname, hw⟩)

theorem rightWords_eq_nil_iff {right : List String} : rightWords right = [] ↔ right = [] := by
  constructor
  · intro h
    exact Classical.byContradiction fun hne => rightWords_ne_nil hne h
  · rintro rfl
    rfl

theorem rightWords_inj {right right' : List String} (h : rightWords right = rightWords right') : right = right' := by
  have hsplit : ∀ {right : List String}, right ≠ [] →
      (rightWords right).splitOn "\\" = right.map fun name => [texMarked "\\epsilon" name] := by
    intro right hne
    apply List.splitOn_intercalate
    · refine List.forall_mem_map.mpr fun name _ hmem => ?_
      exact texMarked_ne (by decide) (by decide +kernel) name (List.mem_singleton.mp hmem).symm
    · simpa using hne
  by_cases hne : right = []
  · rw [hne, eq_comm, rightWords_eq_nil_iff.mpr rfl, rightWords_eq_nil_iff] at h
    rw [hne, h]
  · have hne' : right' ≠ [] := fun e => hne (rightWords_eq_nil_iff.mp (h.trans (rightWords_eq_nil_iff.mpr e)))
    have hnames := hsplit hne
    rw [h, hsplit hne'] at hnames
    refine (List.map_inj_right fun name name' e => ?_).mp hnames.symm
    exact texMarked_inj (List.cons.inj e).1

theorem sideWords_inj {rights rights' : List (List String)} (hne : rights ≠ []) (hne' : rights' ≠ [])
    (h : sideWords rights = sideWords rights') : rights = rights' := by
  have hsplit : ∀ {rights : List (List String)}, rights ≠ [] →
      (sideWords rights).splitOn "\\mid" = rights.map rightWords := by
    intro rights hne
    apply List.splitOn_intercalate
    · refine List.forall_mem_map.mpr fun right _ hmem => ?_
      rcases mem_rightWords hmem with hw | ⟨name, _, hw⟩
      · exact absurd hw (by decide)
      · exact texMarked_ne (by decide) (by decide +kernel) name hw.symm
    · simpa using hne
  have hsides := hsplit hne
  rw [h, hsplit hne'] at hsides
  exact (List.map_inj_right fun _ _ => rightWords_inj).mp hsides.symm

/-- A rule whose every side has a name at least, and whose names are words. -/
structure Complete (r : NamedRule) : Prop extends r.OfWords where
  rights_ne_nil : r.rights ≠ []
  right_ne_nil : ∀ right ∈ r.rights, right ≠ []

def arrowTail (aligned : Bool) : String := if aligned then "& \\rightarrow &" else "\\rightarrow "

namespace Complete
variable {r : NamedRule} (hr : r.Complete)
include hr

theorem latex_eq_words (aligned : Bool) : r.latexBy tex aligned =
    texMarked "\\epsilon" r.left ++ " " ++ (arrowTail aligned ++ unwords (sideWords r.rights)) := by
  have harrow : arrow aligned = " " ++ arrowTail aligned := by cases aligned <;> rfl
  rw [latex_eq hr.rights_ne_nil, markedRights_eq hr.right_ne_nil, harrow]
  simp only [String.append_assoc]

theorem cutAt_sideWords : cutAt ' ' (unwords (sideWords r.rights)) = sideWords r.rights := by
  apply cutAt_unwords
  · intro w hw
    rcases mem_sideWords hw with rfl | rfl | ⟨right, hright, name, hname, rfl⟩
    · decide
    · decide
    · exact not_mem_texMarked (by decide) (by decide) ((hr.rights right hright name hname).not_mem (by decide))
  · apply intercalate_ne_nil (by simpa using hr.rights_ne_nil)
    exact List.forall_mem_map.mpr fun right hright => rightWords_ne_nil (hr.right_ne_nil right hright)

end Complete

/-- Whatever its names are made of, a rule is told by its LaTeX text. -/
theorem latex_eq_iff {escape : String → String} (hescape : EscapesTex escape) {r s : NamedRule} (hr : r.Complete)
    (hs : s.Complete) (aligned : Bool) : r.latexBy escape aligned = s.latexBy escape aligned ↔ r = s := by
  obtain rfl := hescape.eq_tex
  constructor
  · intro h
    rw [hr.latex_eq_words, hs.latex_eq_words] at h
    have hblank : ∀ {name : String}, IsWord name → ' ' ∉ (texMarked "\\epsilon" name).toList :=
      fun hname => not_mem_texMarked (by decide) (by decide) (hname.not_mem (by decide))
    have hsep : " ".toList = [ ' '] := rfl
    obtain ⟨hleft, hrest⟩ := append_sep_inj_of_first hsep (hblank hr.left) (hblank hs.left) h
    have hwords := congrArg (cutAt ' ') ((String.append_right_inj _).mp hrest)
    rw [hr.cutAt_sideWords, hs.cutAt_sideWords] at hwords
    have hrights := sideWords_inj hr.rights_ne_nil hs.rights_ne_nil hwords
    obtain ⟨left, rights⟩ := r
    obtain ⟨left', rights'⟩ := s
    obtain rfl := texMarked_inj hleft
    obtain rfl := hrights
    rfl
  · exact fun h => congrArg (latexBy tex · aligned) h

/-- Names that are codes, or the commands between names. -/
def commandRule : NamedRule := ⟨"-", [["--", "[", "\\mid"], ["ε", "\\epsilon"]]⟩

def codeRule : NamedRule := ⟨"-", [["-", "-", "\x7b[\x7d", "\\"], ["ε", "\\epsilon"]]⟩

theorem latex_eq_iff_commands : commandRule.Complete ∧ codeRule.Complete ∧
    commandRule.latexBy tex false ≠ codeRule.latexBy tex false ∧
    commandRule.latexBy tex false = "- \\rightarrow -\x7b\x7d- \\ \x7b[\x7d \\ \\textbackslash\x7b\x7dmid \\mid " ++
      "\\epsilon \\ \\textbackslash\x7b\x7depsilon" ∧
    codeRule.latexBy tex false = "- \\rightarrow - \\ - \\ \\\x7b\x7b[\x7d\\\x7d \\ \\textbackslash\x7b\x7d \\mid " ++
      "\\epsilon \\ \\textbackslash\x7b\x7depsilon" := by
  have hcommand : commandRule.Complete := ⟨⟨by decide, by decide⟩, by decide, by decide⟩
  have hcode : codeRule.Complete := ⟨⟨by decide, by decide⟩, by decide, by decide⟩
  have hdistinct := (latex_eq_iff escapesTex_tex hcommand hcode false).not.mpr (by decide)
  exact ⟨hcommand, hcode, hdistinct, by decide +kernel, by decide +kernel⟩

end NamedRule

end Predictive
