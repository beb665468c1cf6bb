/-!
# White space, words and trimming

The blanks are the 25 characters with the Unicode property White_Space. A text
is cut into its words, the longest runs of other characters.
-/

namespace Predictive.Text

def isBlank (c : Char) : Bool :=
  let n := c.toNat
  decide (9 ≤ n ∧ n ≤ 13 ∨ n = 0x20 ∨ n = 0x85 ∨ n = 0xa0 ∨ n = 0x1680 ∨ 0x2000 ≤ n ∧ n ≤ 0x200a ∨
    n = 0x2028 ∨ n = 0x2029 ∨ n = 0x202f ∨ n = 0x205f ∨ n = 0x3000)

example : [ '\x09', '\x0d', ' ', '\x85', '\xa0', '\u2000', '\u200a', '\u3000'].all isBlank = true := by
  decide

example : [ '\x08', '\x0e', '\x1c', '\x1f', '\u180e', '\u200b', '\ufeff'].any isBlank = false := by
  decide

/-! ## Words -/

/-- Puts an opening word before the later ones, unless it is empty. -/
def closeWord (word : List Char) (later : List (List Char)) : List (List Char) :=
  if word.isEmpty then later else word :: later

/-- The word that a text opens with, empty before a blank, and the later words. -/
def cutWord : List Char → List Char × List (List Char)
  | [] => ([], [])
  | c :: cs =>
    if isBlank c then ([], closeWord (cutWord cs).1 (cutWord cs).2)
    else (c :: (cutWord cs).1, (cutWord cs).2)

def words (cs : List Char) : List (List Char) := closeWord (cutWord cs).1 (cutWord cs).2

def tokens (s : String) : List String := (words s.toList).map String.ofList

@[simp] theorem words_nil : words [] = [] := rfl

theorem words_blank {c : Char} (h : isBlank c = true) (cs : List Char) : words (c :: cs) = words cs := by
  simp [words, cutWord, h, closeWord]

theorem words_append_blank {c : Char} (h : isBlank c = true) (a b : List Char) :
    words (a ++ c :: b) = words a ++ words b := by
  have key : cutWord (a ++ c :: b) = ((cutWord a).1, (cutWord a).2 ++ words b) := by
    induction a with
    | nil => simp [cutWord, h, words]
    | cons d a ih =>
      rw [List.cons_append, cutWord, cutWord, ih]
      split
      · by_cases e : (cutWord a).1 = [] <;> simp [closeWord, e]
      · rfl
  rw [words, key]
  by_cases e : (cutWord a).1 = [] <;> simp [words, closeWord, e]

theorem of_mem_words {w : List Char} {cs : List Char} (h : w ∈ words cs) :
    w ≠ [] ∧ ∀ c ∈ w, isBlank c = false := by
  have key : (∀ c ∈ (cutWord cs).1, isBlank c = false) ∧
      ∀ w ∈ (cutWord cs).2, w ≠ [] ∧ ∀ c ∈ w, isBlank c = false := by
    clear h
    induction cs with
    | nil => simp [cutWord]
    | cons c cs ih =>
      rw [cutWord]
      split
      · refine ⟨by simp, fun w hw => ?_⟩
        by_cases e : (cutWord cs).1 = []
        · exact ih.2 w (by simpa [closeWord, e] using hw)
        · rcases List.mem_cons.1 (by simpa [closeWord, e] using hw) with rfl | hw
          · exact ⟨e, ih.1⟩
          · exact ih.2 w hw
      · rename_i hc
        refine ⟨fun d hd => ?_, ih.2⟩
        rcases List.mem_cons.1 hd with rfl | hd
        · exact Bool.not_eq_true _ ▸ hc
        · exact ih.1 d hd
  by_cases e : (cutWord cs).1 = []
  · exact key.2 w (by simpa [words, closeWord, e] using h)
  · rcases List.mem_cons.1 (by simpa [words, closeWord, e] using h) with rfl | h
    · exact ⟨e, key.1⟩
    · exact key.2 w h

theorem words_of_no_blank {w : List Char} (hne : w ≠ []) (h : ∀ c ∈ w, isBlank c = false) :
    words w = [w] := by
  have key : cutWord w = (w, []) := by
    clear hne
    induction w with
    | nil => rfl
    | cons c w ih =>
      rw [cutWord, ih fun d hd => h d (List.mem_cons_of_mem _ hd)]
      simp [h c List.mem_cons_self]
  simp [words, key, closeWord, hne]

theorem words_eq_nil_iff {cs : List Char} : words cs = [] ↔ ∀ c ∈ cs, isBlank c = true := by
  induction cs with
  | nil => simp
  | cons c cs ih =>
    by_cases h : isBlank c
    · simp [words_blank h, ih, h]
    · simp [words, cutWord, closeWord, h]

theorem of_mem_tokens {word s : String} (h : word ∈ tokens s) : word ≠ "" ∧ ∀ c ∈ word.toList, isBlank c = false := by
  obtain ⟨w, hw, rfl⟩ := List.mem_map.mp h
  simpa using of_mem_words hw

theorem tokens_of_no_blank {word : String} (hne : word ≠ "") (h : ∀ c ∈ word.toList, isBlank c = false) :
    tokens word = [word] := by
  rw [tokens, words_of_no_blank (by simpa using hne) h]
  simp

/-! ## Trimming -/

def trimBlanks (cs : List Char) : List Char :=
  ((cs.dropWhile isBlank).reverse.dropWhile isBlank).reverse

def trim (s : String) : String := String.ofList (trimBlanks s.toList)

theorem exists_blanks_after_word {cs : List Char} (h : (cutWord cs).2 = []) :
    ∃ b, (∀ c ∈ b, isBlank c = true) ∧ cs = (cutWord cs).1 ++ b := by
  induction cs with
  | nil => exact ⟨[], by simp, rfl⟩
  | cons c cs ih =>
    by_cases hc : isBlank c
    · have hcs : words cs = [] := by simpa [cutWord, hc, words] using h
      refine ⟨c :: cs, ?_, by simp [cutWord, hc]⟩
      simpa [hc] using words_eq_nil_iff.mp hcs
    · obtain ⟨b, hb, e⟩ := ih (by simpa [cutWord, hc] using h)
      refine ⟨b, hb, ?_⟩
      simpa [cutWord, hc] using e

theorem exists_blanks_around_word {w cs : List Char} (h : words cs = [w]) :
    ∃ a b, (∀ c ∈ a, isBlank c = true) ∧ (∀ c ∈ b, isBlank c = true) ∧ cs = a ++ w ++ b := by
  induction cs with
  | nil => simp at h
  | cons c cs ih =>
    by_cases hc : isBlank c
    · obtain ⟨a, b, ha, hb, rfl⟩ := ih (by rwa [words_blank hc] at h)
      exact ⟨c :: a, b, by simpa [hc] using ha, hb, rfl⟩
    · have hcut : c :: (cutWord cs).1 = w ∧ (cutWord cs).2 = [] := by
        simpa [words, cutWord, closeWord, hc] using h
      obtain ⟨rfl, hlater⟩ := hcut
      obtain ⟨b, hb, e⟩ := exists_blanks_after_word hlater
      exact ⟨[], b, by simp, hb, by simpa using e⟩

theorem dropWhile_of_no_blank {w : List Char} (h : ∀ c ∈ w, isBlank c = false) (hne : w ≠ []) (cs : List Char) :
    (w ++ cs).dropWhile isBlank = w ++ cs := by
  cases w with
  | nil => exact absurd rfl hne
  | cons c w => simp [h c List.mem_cons_self]

theorem dropWhile_blanks {b : List Char} (hb : ∀ c ∈ b, isBlank c = true) : b.dropWhile isBlank = [] := by
  rw [← List.append_nil b, List.dropWhile_append_of_pos hb, List.dropWhile_nil]

theorem trimBlanks_around {a b : List Char} (ha : ∀ c ∈ a, isBlank c = true) (hb : ∀ c ∈ b, isBlank c = true)
    (cs : List Char) : trimBlanks (a ++ cs ++ b) = trimBlanks cs := by
  unfold trimBlanks
  rw [List.append_assoc, List.dropWhile_append_of_pos ha, List.dropWhile_append]
  split
  · rename_i hcs
    rw [dropWhile_blanks hb, List.isEmpty_iff.mp hcs]
  · rw [List.reverse_append, List.dropWhile_append_of_pos (by simpa using hb)]

theorem trimBlanks_of_no_blank {w : List Char} (hne : w ≠ []) (hw : ∀ c ∈ w, isBlank c = false) : trimBlanks w = w := by
  have hfront := dropWhile_of_no_blank hw hne []
  have hend := dropWhile_of_no_blank (w := w.reverse) (by simpa using hw) (by simpa using hne) []
  rw [List.append_nil] at hfront hend
  rw [trimBlanks, hfront, hend, List.reverse_reverse]

theorem trimBlanks_around_word {a w b : List Char} (ha : ∀ c ∈ a, isBlank c = true)
    (hb : ∀ c ∈ b, isBlank c = true) (hne : w ≠ []) (hw : ∀ c ∈ w, isBlank c = false) :
    trimBlanks (a ++ w ++ b) = w := by
  rw [trimBlanks_around ha hb, trimBlanks_of_no_blank hne hw]

/-- A text with blanks around it. -/
def Padded (s padded : String) : Prop := ∃ a b : List Char,
  (∀ c ∈ a, isBlank c = true) ∧ (∀ c ∈ b, isBlank c = true) ∧ padded.toList = a ++ s.toList ++ b

theorem Padded.trim_eq {s padded : String} (h : Padded s padded) : trim padded = trim s := by
  obtain ⟨a, b, ha, hb, e⟩ := h
  rw [trim, trim, e, trimBlanks_around ha hb]

theorem trim_of_tokens {word s : String} (h : tokens s = [word]) : trim s = word := by
  have hwords : words s.toList = [word.toList] := by
    have := congrArg (List.map String.toList) h
    simpa [tokens, Function.comp_def] using this
  have hmem : word.toList ∈ words s.toList := by simp [hwords]
  obtain ⟨hne, hw⟩ := of_mem_words hmem
  obtain ⟨a, b, ha, hb, e⟩ := exists_blanks_around_word hwords
  rw [trim, e, trimBlanks_around_word ha hb hne hw, String.ofList_toList]

theorem tokens_eq_self_iff {name : String} : tokens name = [name] ↔ (tokens name).length = 1 ∧ trim name = name := by
  constructor
  · intro h
    exact ⟨by rw [h]; rfl, trim_of_tokens h⟩
  · rintro ⟨hlength, htrim⟩
    obtain ⟨word, hword⟩ := List.length_eq_one_iff.mp hlength
    rw [hword, ← trim_of_tokens hword, htrim]

theorem words_append_blanks {b : List Char} (hb : ∀ c ∈ b, isBlank c = true) (cs : List Char) :
    words (cs ++ b) = words cs := by
  cases b with
  | nil => rw [List.append_nil]
  | cons c b =>
    have hwords : words b = [] := words_eq_nil_iff.mpr fun d hd => hb d (List.mem_cons_of_mem c hd)
    rw [words_append_blank (hb c List.mem_cons_self), hwords, List.append_nil]

theorem words_dropWhile_blank (cs : List Char) : words (cs.dropWhile isBlank) = words cs := by
  induction cs with
  | nil => rfl
  | cons c cs ih =>
    by_cases hc : isBlank c
    · rw [List.dropWhile_cons_of_pos hc, ih, words_blank hc]
    · rw [List.dropWhile_cons_of_neg hc]

theorem words_trimBlanks (cs : List Char) : words (trimBlanks cs) = words cs := by
  let d := cs.dropWhile isBlank
  have hsplit : d = trimBlanks cs ++ (d.reverse.takeWhile isBlank).reverse := by
    rw [trimBlanks, ← List.reverse_append, List.takeWhile_append_dropWhile, List.reverse_reverse]
  have hblank : ∀ c ∈ (d.reverse.takeWhile isBlank).reverse, isBlank c = true :=
    fun c hc => List.all_eq_true.mp List.all_takeWhile c (List.mem_reverse.mp hc)
  rw [← words_dropWhile_blank cs, ← words_append_blanks hblank, ← hsplit]

@[simp] theorem tokens_trim (s : String) : tokens (trim s) = tokens s := by
  simp [tokens, trim, words_trimBlanks]

end Predictive.Text
