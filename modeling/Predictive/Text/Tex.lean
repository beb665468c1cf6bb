/-!
# Names in LaTeX text

A character that LaTeX would read as a command, or join with its neighbour, is
written so that it is shown as itself. `EscapesTex` says how, and `tex` is the one
escape that does it.
-/

namespace Predictive.Text

/-- How the characters are written that are not written as themselves. -/
def texCodes : List (Char × String) :=
  [( '&', "\\&"), ( '%', "\\%"), ( '$', "\\$"), ( '#', "\\#"), ( '_', "\\_"), ( '\x7b', "\\\x7b"), ( '\x7d', "\\\x7d"),
    ( '[', "\x7b[\x7d"), ( ']', "\x7b]\x7d"), ( '!', "!\x7b\x7d"), ( '~', "\\textasciitilde\x7b\x7d"),
    ( '^', "\\textasciicircum\x7b\x7d"), ( '<', "\\textless\x7b\x7d"), ( '>', "\\textgreater\x7b\x7d"),
    ( '\\', "\\textbackslash\x7b\x7d")]

/-- How a character other than the hyphen is written. -/
def texChar (c : Char) : List Char :=
  match texCodes.find? fun p => p.1 = c with
  | some p => p.2.toList
  | none => [c]

/-- A hyphen before another one is cut off from it, since two would be joined
into a dash. -/
def texChars : List Char → List Char
  | [] => []
  | '-' :: cs => (if cs.head? = some '-' then "-\x7b\x7d".toList else [ '-']) ++ texChars cs
  | c :: cs => texChar c ++ texChars cs

def tex (s : String) : String := String.ofList (texChars s.toList)

/-- A name is escaped from the left, and a hyphen by what comes after it. -/
structure EscapesTex (escape : String → String) : Prop where
  empty : escape "" = ""
  code : ∀ p ∈ texCodes, ∀ s, escape (String.singleton p.1 ++ s) = p.2 ++ escape s
  hyphens : ∀ s, escape ("--" ++ s) = "-\x7b\x7d" ++ escape ("-" ++ s)
  hyphen : ∀ s, s.toList.head? ≠ some '-' → escape ("-" ++ s) = "-" ++ escape s
  plain : ∀ c s, (∀ p ∈ texCodes, p.1 ≠ c) → c ≠ '-' →
    escape (String.singleton c ++ s) = String.singleton c ++ escape s

theorem texChar_eq (c : Char) : (∃ code, (c, code) ∈ texCodes ∧ texChar c = code.toList) ∨
    (∀ p ∈ texCodes, p.1 ≠ c) ∧ texChar c = [c] := by
  unfold texChar
  cases h : texCodes.find? fun p => p.1 = c with
  | none => exact Or.inr ⟨by simpa using h, rfl⟩
  | some p =>
    have hp : p.1 = c := by simpa using List.find?_some h
    subst hp
    exact Or.inl ⟨p.2, List.mem_of_find?_eq_some h, rfl⟩

theorem EscapesTex.eq_tex {escape : String → String} (h : EscapesTex escape) : escape = tex := by
  have key : ∀ cs, escape (String.ofList cs) = String.ofList (texChars cs) := by
    intro cs
    fun_induction texChars cs with
    | case1 => exact h.empty
    | case2 cs ih =>
      by_cases hcs : cs.head? = some '-'
      · obtain ⟨ds, rfl⟩ := List.head?_eq_some_iff.mp hcs
        have hhyphens := h.hyphens (String.ofList ds)
        rw [← String.ofList_toList (s := "--"), ← String.ofList_toList (s := "-"), ← String.ofList_append,
          ← String.ofList_append] at hhyphens
        rw [if_pos hcs, String.ofList_append, ← ih, String.ofList_toList]
        exact hhyphens
      · rw [if_neg hcs, String.ofList_append, ← ih, String.ofList_cons]
        exact h.hyphen (String.ofList cs) (by simpa using hcs)
    | case3 c cs hc ih =>
      rw [String.ofList_append, ← ih, String.ofList_cons]
      rcases texChar_eq c with ⟨code, hcode, e⟩ | ⟨hcode, e⟩
      · rw [e, String.ofList_toList]
        exact h.code (c, code) hcode _
      · rw [e]
        exact h.plain c _ hcode hc
  funext s
  have hs := key s.toList
  rwa [String.ofList_toList] at hs

theorem texChars_cons {c : Char} (hc : c ≠ '-') (cs : List Char) : texChars (c :: cs) = texChar c ++ texChars cs := by
  rw [texChars]
  exact hc

theorem escapesTex_tex : EscapesTex tex where
  empty := rfl
  code p hp s := by
    have hcode : p.1 ≠ '-' ∧ texChar p.1 = p.2.toList :=
      (by decide : ∀ p ∈ texCodes, p.1 ≠ '-' ∧ texChar p.1 = p.2.toList) p hp
    rw [← String.toList_inj]
    simp [tex, texChars_cons hcode.1, hcode.2]
  hyphens s := by
    rw [← String.toList_inj]
    simp [tex, texChars]
  hyphen s hs := by
    rw [← String.toList_inj]
    simp [tex, texChars, hs]
  plain c s hc hne := by
    rcases texChar_eq c with ⟨code, hcode, _⟩ | ⟨_, e⟩
    · exact absurd rfl (hc (c, code) hcode)
    · rw [← String.toList_inj]
      simp [tex, texChars_cons hne, e]

example : tex "a--b-[c]_<" = "a-\x7b\x7d-b-\x7b[\x7dc\x7b]\x7d\\_\\textless\x7b\x7d" := by decide

end Predictive.Text
