import Predictive.Text.Cut

/-!
# LaTeX text as it is read

A backslash takes the next character along, and the two are one sign. An ampersand
that is a sign of its own ends a field, and two backslashes before the end of a
line end a row. Nothing reaches over the ends of a fielded text: it does not end in
a backslash, the braces are in balance in each of its fields, and no row ends in it.
So fielded texts can be joined, and the numbers of their ampersands are added.
-/

namespace Predictive.Text

inductive TexSign where
  | plain (c : Char)
  | escaped (c : Char)
deriving DecidableEq

def texSigns : List Char → List TexSign
  | '\\' :: c :: cs => .escaped c :: texSigns cs
  | c :: cs => .plain c :: texSigns cs
  | [] => []

def texFields (s : String) : List (List TexSign) := (texSigns s.toList).splitOn (.plain '&')

example : texFields "a\\& & \x7b\\\\\x7d" =
    [[.plain 'a', .escaped '&', .plain ' '], [.plain ' ', .plain '\x7b', .escaped '\\', .plain '\x7d']] := by decide

/-- How many braces are open after a sign. None is closed that was not opened. -/
def braceStep? (depth : Nat) (s : TexSign) : Option Nat :=
  if s = .plain '\x7b' then some (depth + 1)
  else if s = .plain '\x7d' then if depth = 0 then none else some (depth - 1)
  else some depth

def Balanced (signs : List TexSign) : Prop := signs.foldlM braceStep? 0 = some 0

instance (signs : List TexSign) : Decidable (Balanced signs) := inferInstanceAs (Decidable (_ = _))

/-- A text with `n` unescaped ampersands. -/
structure Fielded (n : Nat) (s : String) : Prop where
  ending : s.toList.getLast? ≠ some '\\'
  ampersands : (texSigns s.toList).count (.plain '&') = n
  unbroken : .escaped '\\' ∉ texSigns s.toList
  balanced : ∀ field ∈ texFields s, Balanced field

instance (n : Nat) (s : String) : Decidable (Fielded n s) :=
  decidable_of_iff (s.toList.getLast? ≠ some '\\' ∧ (texSigns s.toList).count (.plain '&') = n ∧
      .escaped '\\' ∉ texSigns s.toList ∧ ∀ field ∈ texFields s, Balanced field)
    ⟨fun ⟨hending, hampersands, hunbroken, hbalanced⟩ => ⟨hending, hampersands, hunbroken, hbalanced⟩,
      fun h => ⟨h.ending, h.ampersands, h.unbroken, h.balanced⟩⟩

/-! ## Joined texts -/

theorem getLast?_tail_ne {α : Type} {c d : α} {cs : List α} (h : (c :: cs).getLast? ≠ some d) :
    cs.getLast? ≠ some d := by
  intro e
  exact h (by rw [List.getLast?_cons, e]; rfl)

theorem getLast?_append_ne {α : Type} {d : α} {cs ds : List α} (hcs : cs.getLast? ≠ some d)
    (hds : ds.getLast? ≠ some d) : (cs ++ ds).getLast? ≠ some d := by
  rw [List.getLast?_append]
  cases h : ds.getLast? with
  | none => exact hcs
  | some e => rwa [h] at hds

theorem ending_append (s : String) {t : String} (ht : t.toList ≠ []) (hend : t.toList.getLast? ≠ some '\\') :
    (s ++ t).toList.getLast? ≠ some '\\' := by
  have hlast : t.toList.getLast? = some (t.toList.getLast ht) := List.getLast?_eq_some_getLast ht
  rw [String.toList_append, List.getLast?_append, hlast]
  rwa [hlast] at hend

theorem texSigns_append {cs : List Char} (h : cs.getLast? ≠ some '\\') (ds : List Char) :
    texSigns (cs ++ ds) = texSigns cs ++ texSigns ds := by
  fun_induction texSigns cs with
  | case1 c cs ih => simp [texSigns, ih (getLast?_tail_ne (getLast?_tail_ne h))]
  | case2 c cs hc ih =>
    have hne : c ≠ '\\' := by
      rintro rfl
      cases cs with
      | nil => exact h rfl
      | cons d cs => exact hc d cs rfl rfl
    simp [texSigns, hne, ih (getLast?_tail_ne h)]
  | case3 => rfl

theorem Balanced.append {a b : List TexSign} (ha : Balanced a) (hb : Balanced b) : Balanced (a ++ b) := by
  unfold Balanced at *
  rw [List.foldlM_append, ha]
  exact hb

/-- The last field of a text and the first of the next one become one field. -/
theorem balanced_splitOn_append {x : TexSign} {a b : List TexSign} (ha : ∀ f ∈ a.splitOn x, Balanced f)
    (hb : ∀ f ∈ b.splitOn x, Balanced f) : ∀ f ∈ (a ++ b).splitOn x, Balanced f := by
  by_cases hx : x ∈ a
  · obtain ⟨u, v, rfl, _⟩ := List.eq_append_cons_of_mem hx
    rw [List.splitOn_append_cons_self] at ha
    rw [List.append_assoc, List.cons_append, List.splitOn_append_cons_self]
    intro f hf
    rcases List.mem_append.mp hf with hf | hf
    · exact ha f (List.mem_append_left _ hf)
    · exact balanced_splitOn_append (fun f hf => ha f (List.mem_append_right _ hf)) hb f hf
  · have ha : Balanced a := ha a (by simp [List.splitOn_eq_singleton hx])
    by_cases hx' : x ∈ b
    · obtain ⟨u, v, rfl, hu⟩ := List.eq_append_cons_of_mem hx'
      rw [List.splitOn_append_cons_self, List.splitOn_eq_singleton hu] at hb
      rw [← List.append_assoc, List.splitOn_append_cons_self, List.splitOn_eq_singleton (by simp [hx, hu])]
      simpa using ⟨ha.append (hb u (by simp)), fun f hf => hb f (by simp [hf])⟩
    · rw [List.splitOn_eq_singleton hx'] at hb
      rw [List.splitOn_eq_singleton (by simp [hx, hx'])]
      simpa using ha.append (hb b (by simp))
termination_by a.length

namespace Fielded
variable {m n : Nat} {s t : String}

theorem singleton {c : Char} (h : c ∉ [ '\\', '&', '\x7b', '\x7d']) : Fielded 0 (String.ofList [c]) := by
  simp only [List.mem_cons, List.not_mem_nil, or_false, not_or] at h
  have hsigns : texSigns (String.ofList [c]).toList = [.plain c] := by simp [texSigns]
  refine ⟨by simpa using h.1, ?_, ?_, ?_⟩
  · rw [hsigns, List.count_singleton]
    simpa using h.2.1
  · rw [hsigns]
    simp
  · rw [texFields, hsigns, List.splitOn_eq_singleton (by simpa using Ne.symm h.2.1)]
    simp [Balanced, braceStep?, h.2.2.1, h.2.2.2]

theorem signs_append (hs : Fielded m s) (t : String) :
    texSigns (s ++ t).toList = texSigns s.toList ++ texSigns t.toList := by
  rw [String.toList_append, texSigns_append hs.ending]

theorem append (hs : Fielded m s) (ht : Fielded n t) : Fielded (m + n) (s ++ t) := by
  have hsigns := hs.signs_append t
  refine ⟨?_, ?_, ?_, ?_⟩
  · rw [String.toList_append]
    exact getLast?_append_ne hs.ending ht.ending
  · rw [hsigns, List.count_append, hs.ampersands, ht.ampersands]
  · rw [hsigns]
    simp [hs.unbroken, ht.unbroken]
  · unfold texFields
    rw [hsigns]
    exact balanced_splitOn_append hs.balanced ht.balanced

theorem intercalate (hs : Fielded n s) {parts : List String} (h : ∀ p ∈ parts, Fielded 0 p) :
    Fielded (n * (parts.length - 1)) (s.intercalate parts) := by
  induction parts with
  | nil => exact (by decide : Fielded 0 "")
  | cons p parts ih =>
    obtain ⟨hp, hparts⟩ := List.forall_mem_cons.mp h
    cases parts with
    | nil => simpa using hp
    | cons q parts =>
      have hlength : n * ((p :: q :: parts).length - 1) = 0 + n + n * ((q :: parts).length - 1) := by
        simp only [List.length_cons, Nat.add_sub_cancel, Nat.mul_succ]
        omega
      rw [String.intercalate_cons_cons, hlength]
      exact (hp.append hs).append (ih hparts)

theorem mem_signs_intercalate (hs : Fielded n s) {x : TexSign} {parts : List String}
    (h : ∀ p ∈ parts, Fielded 0 p) (hx : x ∈ texSigns (s.intercalate parts).toList) :
    x ∈ texSigns s.toList ∨ ∃ p ∈ parts, x ∈ texSigns p.toList := by
  induction parts with
  | nil => simp [texSigns] at hx
  | cons p parts ih =>
    obtain ⟨hp, hparts⟩ := List.forall_mem_cons.mp h
    cases parts with
    | nil => exact Or.inr ⟨p, List.mem_cons_self, by simpa using hx⟩
    | cons q parts =>
      rw [String.intercalate_cons_cons, (hp.append hs).signs_append, hp.signs_append, List.mem_append,
        List.mem_append] at hx
      rcases hx with (hx | hx) | hx
      · exact Or.inr ⟨p, List.mem_cons_self, hx⟩
      · exact Or.inl hx
      · exact (ih hparts hx).imp_right fun ⟨r, hr, hx⟩ => ⟨r, List.mem_cons_of_mem p hr, hx⟩

end Fielded

/-- A backslash before a character is a sign with it, where no backslash is a sign
with another one. -/
theorem escaped_of_infix {x : Char} {cs : List Char} (h : [ '\\', x] <:+: cs) (hbreak : .escaped '\\' ∉ texSigns cs) :
    .escaped x ∈ texSigns cs := by
  fun_induction texSigns cs with
  | case1 c cs ih =>
    simp only [List.mem_cons, not_or] at hbreak
    rcases List.infix_cons_iff.mp h with h | h
    · simp only [List.cons_prefix_cons] at h
      exact List.mem_cons.mpr (Or.inl (by rw [h.2.1]))
    rcases List.infix_cons_iff.mp h with h | h
    · simp only [List.cons_prefix_cons] at h
      exact absurd (by rw [h.1]) hbreak.1
    · exact List.mem_cons_of_mem _ (ih h hbreak.2)
  | case2 c cs hc ih =>
    simp only [List.mem_cons, not_or] at hbreak
    rcases List.infix_cons_iff.mp h with h | h
    · simp only [List.cons_prefix_cons] at h
      obtain ⟨rfl, later, rfl⟩ := h
      exact absurd rfl (hc x later rfl)
    · exact List.mem_cons_of_mem _ (ih h hbreak.2)
  | case3 => simp at h

/-- Braces are in balance whatever is open around them. -/
theorem Balanced.foldlM {signs : List TexSign} (h : Balanced signs) (depth : Nat) :
    signs.foldlM braceStep? depth = some depth := by
  have hstep : ∀ {m n : Nat} {s : TexSign}, braceStep? m s = some n → braceStep? (m + depth) s = some (n + depth) := by
    intro m n s
    unfold braceStep?
    split
    · simp only [Option.some.injEq]
      omega
    split
    · split
      · simp
      · rw [if_neg (by omega)]
        simp only [Option.some.injEq]
        omega
    · simp
  have hrun : ∀ {signs : List TexSign} {m n : Nat}, signs.foldlM braceStep? m = some n →
      signs.foldlM braceStep? (m + depth) = some (n + depth) := by
    intro signs
    induction signs with
    | nil => simp
    | cons s signs ih =>
      intro m n h
      rw [List.foldlM_cons] at h ⊢
      obtain ⟨k, hk, h⟩ := Option.bind_eq_some_iff.mp h
      exact Option.bind_eq_some_iff.mpr ⟨_, hstep hk, ih h⟩
  simpa using hrun h

theorem Fielded.braces {s : String} (h : Fielded 0 s) : Fielded 0 ("\x7b" ++ s ++ "\x7d") := by
  have hsigns : texSigns ("\x7b" ++ s ++ "\x7d").toList =
      .plain '\x7b' :: (texSigns s.toList ++ [.plain '\x7d']) := by
    have hend := texSigns_append h.ending "\x7d".toList
    simp only [String.toList_append] at hend ⊢
    rw [List.append_assoc, show "\x7b".toList = [ '\x7b'] from rfl, List.singleton_append, texSigns, hend]
    · rfl
    · simp
  have hamp : .plain '&' ∉ texSigns s.toList := List.count_eq_zero.mp h.ampersands
  have hbalanced : Balanced (texSigns s.toList) := h.balanced _ (by simp [texFields, List.splitOn_eq_singleton hamp])
  refine ⟨ending_append _ (by decide) (by decide), ?_, ?_, ?_⟩
  · rw [hsigns, List.count_eq_zero]
    simp [hamp]
  · rw [hsigns]
    simp [h.unbroken]
  · rw [texFields, hsigns, List.splitOn_eq_singleton (by simp [hamp])]
    simp [Balanced, List.foldlM_append, braceStep?, hbalanced.foldlM]

/-- A fielded text without line breaks. -/
structure FieldedLine (n : Nat) (s : String) : Prop extends Fielded n s where
  line : '\n' ∉ s.toList

instance (n : Nat) (s : String) : Decidable (FieldedLine n s) :=
  decidable_of_iff (Fielded n s ∧ '\n' ∉ s.toList) ⟨fun ⟨hfielded, hline⟩ => ⟨hfielded, hline⟩, fun h => ⟨h.toFielded, h.line⟩⟩

namespace FieldedLine
variable {m n : Nat} {s t : String}

theorem append (hs : FieldedLine m s) (ht : FieldedLine n t) : FieldedLine (m + n) (s ++ t) :=
  ⟨hs.toFielded.append ht.toFielded, by simp [hs.line, ht.line]⟩

theorem intercalate (hs : FieldedLine n s) {parts : List String} (h : ∀ p ∈ parts, FieldedLine 0 p) :
    FieldedLine (n * (parts.length - 1)) (s.intercalate parts) :=
  ⟨hs.toFielded.intercalate fun p hp => (h p hp).toFielded, not_mem_intercalate hs.line fun p hp => (h p hp).line⟩

theorem row (hs : FieldedLine 1 s) {p : String} {parts : List String} (hp : FieldedLine 0 p)
    (h : ∀ q ∈ parts, FieldedLine 0 q) : FieldedLine parts.length (s.intercalate (p :: parts)) := by
  simpa using hs.intercalate (List.forall_mem_cons.mpr ⟨hp, h⟩)

theorem braces (h : FieldedLine 0 s) : FieldedLine 0 ("\x7b" ++ s ++ "\x7d") :=
  ⟨h.toFielded.braces, by simp [h.line]⟩

end FieldedLine

/-! ## Rows -/

def rowBreak : String := "\\\\\n"

/-- The rows stand between an opening and a closing, and row breaks stand between
one row and the next and nowhere else. -/
structure BrokenInto (opening : String) (rows : List String) (closing text : String) : Prop where
  parts : text = opening ++ rowBreak.intercalate rows ++ closing
  breaks : ∀ above below, text = above ++ rowBreak ++ below ↔ ∃ before after, rows = before ++ after ∧
    before ≠ [] ∧ after ≠ [] ∧ above = opening ++ rowBreak.intercalate before ∧
      below = rowBreak.intercalate after ++ closing

theorem append_cons_inj_of_first {α : Type} {x : α} {a b c d : List α} (ha : x ∉ a) (hc : x ∉ c)
    (h : a ++ x :: b = c ++ x :: d) : a = c ∧ b = d := by
  induction a generalizing c with
  | nil => cases c <;> simp_all
  | cons y a ih =>
    simp only [List.mem_cons, not_or] at ha
    cases c with
    | nil => exact absurd (List.cons.inj h).1.symm ha.1
    | cons z c =>
      simp only [List.mem_cons, not_or] at hc
      obtain ⟨rfl, h⟩ := List.cons.inj h
      obtain ⟨rfl, rfl⟩ := ih ha.2 hc.2 (by simpa using h)
      exact ⟨rfl, rfl⟩

section
variable {sep : String} {x : Char} (hsep : sep.toList = [x])
include hsep

theorem append_sep_inj_of_first {a b c d : String} (ha : x ∉ a.toList) (hc : x ∉ c.toList)
    (h : a ++ sep ++ b = c ++ sep ++ d) : a = c ∧ b = d := by
  have h := congrArg String.toList h
  simp only [String.toList_append, hsep, List.append_assoc, List.singleton_append] at h
  simpa [String.toList_inj] using append_cons_inj_of_first ha hc h

theorem exists_first {s : String} (h : x ∈ s.toList) : ∃ a b, s = a ++ sep ++ b ∧ x ∉ a.toList := by
  obtain ⟨a, b, e, ha⟩ := List.eq_append_cons_of_mem h
  refine ⟨String.ofList a, String.ofList b, ?_, by simpa using ha⟩
  rw [← String.toList_inj, e]
  simp [hsep]

end

theorem rowBreak_append (s : String) : rowBreak ++ s = "\\\\" ++ ("\n" ++ s) := by
  rw [← String.append_assoc]
  rfl

/-- A row break stands at the end of the first line or after it. -/
theorem break_of_line {line rest above below : String} (h : '\n' ∉ line.toList)
    (e : line ++ "\n" ++ rest = above ++ rowBreak ++ below) :
    line = above ++ "\\\\" ∧ rest = below ∨
      ∃ later, above = line ++ "\n" ++ later ∧ rest = later ++ rowBreak ++ below := by
  have hsep : "\n".toList = ['\n'] := rfl
  by_cases habove : '\n' ∈ above.toList
  · obtain ⟨a, b, rfl, ha⟩ := exists_first hsep habove
    have e : line ++ "\n" ++ rest = a ++ "\n" ++ (b ++ rowBreak ++ below) := by
      rw [e]
      simp only [String.append_assoc]
    obtain ⟨rfl, rfl⟩ := append_sep_inj_of_first hsep h ha e
    exact Or.inr ⟨b, rfl, rfl⟩
  · have e : line ++ "\n" ++ rest = (above ++ "\\\\") ++ "\n" ++ below := by
      rw [e]
      simp only [String.append_assoc, rowBreak_append]
    exact Or.inl (append_sep_inj_of_first hsep h (by simp [habove]) e)

/-- A text without line breaks, or one whose only line break comes first. -/
def Closing (s : String) : Prop := '\n' ∉ s.toList ∨ ∃ line, s = "\n" ++ line ∧ '\n' ∉ line.toList

theorem not_break_of_no_newline {s above below : String} (h : '\n' ∉ s.toList) : s ≠ above ++ rowBreak ++ below := by
  rintro rfl
  simp [rowBreak] at h

theorem not_break_of_closing {row closing above below : String} (hrow : '\n' ∉ row.toList)
    (hending : row.toList.getLast? ≠ some '\\') (hclosing : Closing closing) :
    row ++ closing ≠ above ++ rowBreak ++ below := by
  rcases hclosing with hclosing | ⟨line, rfl, hline⟩
  · exact not_break_of_no_newline (by simp [hrow, hclosing])
  · intro e
    rw [← String.append_assoc] at e
    rcases break_of_line hrow e with ⟨rfl, _⟩ | ⟨later, _, rfl⟩
    · simp at hending
    · exact not_break_of_no_newline hline rfl

theorem breaks_of_rows {rows : List String} {closing : String}
    (hrows : ∀ r ∈ rows, '\n' ∉ r.toList ∧ r.toList.getLast? ≠ some '\\') (hclosing : Closing closing)
    {above below : String} (e : rowBreak.intercalate rows ++ closing = above ++ rowBreak ++ below) :
    ∃ before after, rows = before ++ after ∧ before ≠ [] ∧ after ≠ [] ∧
      above = rowBreak.intercalate before ∧ below = rowBreak.intercalate after ++ closing := by
  induction rows generalizing above with
  | nil =>
    have hempty : '\n' ∉ "".toList := by simp
    exact absurd e (not_break_of_closing hempty (by simp) hclosing)
  | cons row rows ih =>
    obtain ⟨⟨hrow, hending⟩, hrows⟩ := List.forall_mem_cons.mp hrows
    cases rows with
    | nil =>
      rw [String.intercalate_singleton] at e
      exact absurd e (not_break_of_closing hrow hending hclosing)
    | cons row' rows =>
      have e : (row ++ "\\\\") ++ "\n" ++ (rowBreak.intercalate (row' :: rows) ++ closing) =
          above ++ rowBreak ++ below := by
        rw [← e, String.intercalate_cons_cons]
        simp only [String.append_assoc, rowBreak_append]
      rcases break_of_line (by simp [hrow]) e with ⟨hfirst, rfl⟩ | ⟨later, rfl, hlater⟩
      · exact ⟨[row], row' :: rows, rfl, by simp, by simp, by simpa using hfirst.symm, rfl⟩
      · obtain ⟨before, after, hsplit, hbefore, hafter, rfl, rfl⟩ := ih hrows hlater
        refine ⟨row :: before, after, by rw [hsplit]; rfl, by simp, hafter, ?_, rfl⟩
        rw [String.intercalate_cons_of_ne_nil hbefore]
        simp only [String.append_assoc, rowBreak_append]

namespace BrokenInto

theorem of_rows {rows : List String} {closing : String}
    (hrows : ∀ r ∈ rows, '\n' ∉ r.toList ∧ r.toList.getLast? ≠ some '\\') (hclosing : Closing closing) :
    BrokenInto "" rows closing (rowBreak.intercalate rows ++ closing) where
  parts := by simp
  breaks above below := by
    constructor
    · simpa using breaks_of_rows hrows hclosing
    · rintro ⟨before, after, rfl, hbefore, hafter, rfl, rfl⟩
      rw [String.intercalate_append_of_ne_nil hbefore hafter]
      simp [String.append_assoc]

theorem after_line {opening closing text line : String} {rows : List String} (h : BrokenInto opening rows closing text)
    (hline : '\n' ∉ line.toList) (hending : line.toList.getLast? ≠ some '\\') :
    BrokenInto (line ++ "\n" ++ opening) rows closing (line ++ "\n" ++ text) where
  parts := by
    rw [h.parts]
    simp only [String.append_assoc]
  breaks above below := by
    constructor
    · intro e
      rcases break_of_line hline e with ⟨rfl, _⟩ | ⟨later, rfl, hlater⟩
      · simp at hending
      · obtain ⟨before, after, hrows, hbefore, hafter, rfl, rfl⟩ := (h.breaks later below).mp hlater
        exact ⟨before, after, hrows, hbefore, hafter, by simp only [String.append_assoc], rfl⟩
    · rintro ⟨before, after, hrows, hbefore, hafter, rfl, rfl⟩
      rw [(h.breaks _ _).mpr ⟨before, after, hrows, hbefore, hafter, rfl, rfl⟩]
      simp only [String.append_assoc]

end BrokenInto

def columnsOf (preamble : String) : Nat := preamble.toList.countP fun c => c != '|'

/-- A table with a header and rows, each with a field for every column of the
preamble. The rows in `last` only close it. -/
structure Tabulated (begins preamble header : String) (rows last : List String) (closing text : String) : Prop where
  broken : BrokenInto (begins ++ "\x7b" ++ preamble ++ "\x7d" ++ "\n" ++ (header ++ "\\\\\\hline" ++ "\n"))
    (rows ++ last) closing text
  header : Fielded (columnsOf preamble - 1) header
  rows : ∀ r ∈ rows, Fielded (columnsOf preamble - 1) r

theorem Tabulated.of_lines {begins preamble header closing : String} {rows last : List String}
    (hbegins : '\n' ∉ begins.toList) (hpreamble : '\n' ∉ preamble.toList)
    (hheader : FieldedLine (columnsOf preamble - 1) header)
    (hrows : ∀ r ∈ rows, FieldedLine (columnsOf preamble - 1) r)
    (hlast : ∀ r ∈ last, '\n' ∉ r.toList ∧ r.toList.getLast? ≠ some '\\') (hclosing : Closing closing) :
    Tabulated begins preamble header rows last closing
      (begins ++ "\x7b" ++ preamble ++ "\x7d" ++ "\n" ++ (header ++ "\\\\\\hline" ++ "\n" ++
        (rowBreak.intercalate (rows ++ last) ++ closing))) where
  broken := by
    have hbroken : BrokenInto "" (rows ++ last) closing (rowBreak.intercalate (rows ++ last) ++ closing) := by
      apply BrokenInto.of_rows _ hclosing
      intro r hr
      rcases List.mem_append.mp hr with hr | hr
      · exact ⟨(hrows r hr).line, (hrows r hr).ending⟩
      · exact hlast r hr
    have hheaderLine : '\n' ∉ (header ++ "\\\\\\hline").toList := by simp [hheader.line]
    have hbeginsLine : '\n' ∉ (begins ++ "\x7b" ++ preamble ++ "\x7d").toList := by simp [hbegins, hpreamble]
    have hheaderEnd := ending_append header (t := "\\\\\\hline") (by decide) (by decide)
    have hbeginsEnd := ending_append (begins ++ "\x7b" ++ preamble) (t := "\x7d") (by decide) (by decide)
    have htable := (hbroken.after_line hheaderLine hheaderEnd).after_line hbeginsLine hbeginsEnd
    rwa [String.append_empty] at htable
  header := hheader.toFielded
  rows r hr := (hrows r hr).toFielded

end Predictive.Text
