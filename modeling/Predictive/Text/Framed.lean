import Mathlib.Logic.Function.Basic
import Predictive.Text.Json

/-!
# JSON texts that tell their end

A JSON text says by itself where it ends, whatever comes after it: a string ends
at the first quote that is not escaped, and an array or object at the bracket
after its last part. So texts that agree are texts of the same value.
-/

namespace Predictive.Text.Json

/-! ## Strings -/

def hexValue (c : Char) : Nat := if c.isDigit then c.toNat - '0'.toNat else c.toNat - 'a'.toNat + 10

/-- The character whose code a text opens with, and the rest. A quote is no code. -/
def readChar? : List Char → Option (Char × List Char)
  | '"' :: _ => none
  | '\\' :: 'b' :: rest => some ( '\x08', rest)
  | '\\' :: 'f' :: rest => some ( '\x0c', rest)
  | '\\' :: 'n' :: rest => some ( '\n', rest)
  | '\\' :: 'r' :: rest => some ( '\r', rest)
  | '\\' :: 't' :: rest => some ( '\t', rest)
  | '\\' :: 'u' :: '0' :: '0' :: high :: low :: rest => some (Char.ofNat (16 * hexValue high + hexValue low), rest)
  | '\\' :: c :: rest => some (c, rest)
  | c :: rest => some (c, rest)
  | [] => none

theorem hexValue_digitChar : ∀ d < 16, hexValue (Nat.digitChar d) = d := by decide

theorem readChar?_escapeChar (c : Char) (rest : List Char) : readChar? (escapeChar c ++ rest) = some (c, rest) := by
  unfold escapeChar
  split
  case h_8 hquote hslash _ _ _ _ _ =>
    by_cases hc : c.toNat < 0x20
    · have hdigits : 16 * hexValue (Nat.digitChar (c.toNat / 16)) + hexValue (Nat.digitChar (c.toNat % 16)) =
          c.toNat := by
        rw [hexValue_digitChar _ (by omega), hexValue_digitChar _ (by omega)]
        omega
      rw [if_pos hc]
      simp only [List.cons_append, List.nil_append, readChar?, hdigits, Char.ofNat_toNat]
    · rw [if_neg hc, List.singleton_append]
      unfold readChar?
      split <;> simp_all
  all_goals rfl

theorem escaped_append_inj : ∀ {cs ds as bs : List Char},
    cs.flatMap escapeChar ++ '"' :: as = ds.flatMap escapeChar ++ '"' :: bs → cs = ds ∧ as = bs
  | [], [], _, _, h => ⟨rfl, (List.cons.inj h).2⟩
  | [], d :: ds, _, _, h => by
    rw [List.flatMap_cons, List.append_assoc] at h
    have hread := congrArg readChar? h
    rw [readChar?_escapeChar] at hread
    cases hread
  | c :: cs, [], _, _, h => by
    rw [List.flatMap_cons, List.append_assoc] at h
    have hread := congrArg readChar? h
    rw [readChar?_escapeChar] at hread
    cases hread
  | c :: cs, d :: ds, as, bs, h => by
    rw [List.flatMap_cons, List.flatMap_cons, List.append_assoc, List.append_assoc] at h
    have hread := congrArg readChar? h
    rw [readChar?_escapeChar, readChar?_escapeChar, Option.some.injEq, Prod.mk.injEq] at hread
    obtain ⟨rfl, hrest⟩ := hread
    obtain ⟨rfl, rfl⟩ := escaped_append_inj hrest
    exact ⟨rfl, rfl⟩

/-! ## Texts in front of others -/

/-- The text of a value, with something after it, is a text of no other value, and
it tells what comes after it. -/
def Framed {α : Type} (text : α → String) (x : α) : Prop :=
  ∀ ⦃y : α⦄ ⦃s t : String⦄, text x ++ s = text y ++ t → x = y ∧ s = t

theorem framed_quoted (x : String) : Framed quoted x := by
  intro y s t h
  have hlists := congrArg String.toList h
  simp only [quoted, String.toList_append, String.toList_ofList, List.append_assoc] at hlists
  have hlists : x.toList.flatMap escapeChar ++ '"' :: s.toList = y.toList.flatMap escapeChar ++ '"' :: t.toList :=
    List.append_cancel_left hlists
  simpa [String.toList_inj] using escaped_append_inj hlists

theorem append_ne_of_first {a b : String} {c d : Char} (hcd : c ≠ d) (ha : a.toList.head? = some c)
    (hb : b.toList.head? = some d) (s t : String) : a ++ s ≠ b ++ t := by
  intro h
  have hfirst := head?_append ha s
  rw [h, head?_append hb, Option.some.injEq] at hfirst
  exact hcd hfirst.symm

/-! ## Brackets -/

/-- The parts after the first one, each behind a comma, and what ends them. -/
def laterParts (closing : String) : List String → String
  | [] => closing
  | p :: parts => "," ++ p ++ laterParts closing parts

theorem intercalate_append (closing : String) (parts : List String) (p : String) :
    ",".intercalate (p :: parts) ++ closing = p ++ laterParts closing parts := by
  induction parts generalizing p with
  | nil => simp [laterParts]
  | cons q parts ih =>
    rw [String.intercalate_cons_cons, laterParts, String.append_assoc, ih q]
    simp only [String.append_assoc]

theorem enclosed_cons (opening closing p : String) (parts : List String) :
    enclosed opening closing (p :: parts) = opening ++ (p ++ laterParts closing parts) := by
  rw [enclosed, String.append_assoc, intercalate_append]

theorem enclosed_nil (opening closing : String) : enclosed opening closing [] = opening ++ closing := by
  rw [enclosed, String.intercalate_nil, String.append_empty]

section
variable {α : Type} {text : α → String} {opening closing : String} {mark : Char}
  (hclosing : closing.toList.head? = some mark)
include hclosing

theorem laterParts_append_inj (hmark : mark ≠ ',') : ∀ {xs ys : List α} {s t : String}, (∀ x ∈ xs, Framed text x) →
    laterParts closing (xs.map text) ++ s = laterParts closing (ys.map text) ++ t → xs = ys ∧ s = t
  | [], [], _, _, _, h => ⟨rfl, (String.append_right_inj closing).mp h⟩
  | [], y :: ys, s, t, _, h =>
    absurd h (append_ne_of_first hmark (by simpa [laterParts]) (by simp [laterParts]) s t)
  | x :: xs, [], s, t, _, h =>
    absurd h (append_ne_of_first (Ne.symm hmark) (by simp [laterParts]) (by simpa [laterParts]) s t)
  | x :: xs, y :: ys, _, _, hparts, h => by
    obtain ⟨hx, hxs⟩ := List.forall_mem_cons.mp hparts
    simp only [List.map_cons, laterParts, String.append_assoc, String.append_right_inj] at h
    obtain ⟨rfl, hrest⟩ := hx h
    obtain ⟨rfl, rfl⟩ := laterParts_append_inj hmark hxs hrest
    exact ⟨rfl, rfl⟩

variable (hfirst : ∀ x, ∃ c, (text x).toList.head? = some c ∧ c ≠ mark)
include hfirst

theorem enclosed_cons_ne (x : α) (xs : List α) (s t : String) :
    enclosed opening closing ((x :: xs).map text) ++ s ≠ enclosed opening closing [] ++ t := by
  intro h
  obtain ⟨c, hc, hne⟩ := hfirst x
  rw [List.map_cons, enclosed_cons, enclosed_nil, String.append_assoc, String.append_assoc, String.append_assoc,
    String.append_right_inj] at h
  exact append_ne_of_first hne hc hclosing _ _ h

theorem framed_enclosed (hmark : mark ≠ ',') {xs : List α} (hparts : ∀ x ∈ xs, Framed text x) :
    Framed (fun xs => enclosed opening closing (xs.map text)) xs := by
  intro ys s t h
  match xs, ys with
  | [], [] => exact ⟨rfl, (String.append_right_inj _).mp h⟩
  | [], y :: ys => exact absurd h.symm (enclosed_cons_ne hclosing hfirst y ys t s)
  | x :: xs, [] => exact absurd h (enclosed_cons_ne hclosing hfirst x xs s t)
  | x :: xs, y :: ys =>
    obtain ⟨hx, hxs⟩ := List.forall_mem_cons.mp hparts
    simp only [List.map_cons, enclosed_cons, String.append_assoc, String.append_right_inj] at h
    obtain ⟨rfl, hlater⟩ := hx h
    obtain ⟨rfl, rfl⟩ := laterParts_append_inj hclosing hmark hxs hlater
    exact ⟨rfl, rfl⟩

end

/-! ## Values -/

def Value.opening : Value → Char
  | .bool true => 't'
  | .bool false => 'f'
  | .string _ => '"'
  | .array _ => '['
  | .object _ => '\x7b'

theorem Value.opening_ne_closing (v : Value) : v.opening ≠ ']' := by
  unfold opening
  split <;> decide

theorem head?_quoted (s : String) : (quoted s).toList.head? = some '"' := by simp [quoted]

theorem framed_field {write : Value → String} {f : String × Value} (hf : Framed write f.2) : Framed (field write) f := by
  intro f' s t hfields
  simp only [field, String.append_assoc] at hfields
  obtain ⟨hkey, hrest⟩ := framed_quoted f.1 hfields
  obtain ⟨hvalue, rfl⟩ := hf ((String.append_right_inj ":").mp hrest)
  exact ⟨Prod.ext hkey hvalue, rfl⟩

namespace WritesCompactly
variable {write : Value → String} (h : WritesCompactly write)
include h

theorem head?_write (v : Value) : (write v).toList.head? = some v.opening := by
  cases v with
  | bool b => cases b <;> simp [h.bool, truthValue, Value.opening]
  | string s => rw [h.string, head?_quoted, Value.opening]
  | array items => simp [h.array, enclosed, Value.opening]
  | object fields => simp [h.object, enclosed, Value.opening]

theorem opening_eq {v w : Value} {s t : String} (hvw : write v ++ s = write w ++ t) : v.opening = w.opening := by
  have hfirst := head?_append (h.head?_write v) s
  rw [hvw, head?_append (h.head?_write w), Option.some.injEq] at hfirst
  exact hfirst.symm

theorem framed (v : Value) : Framed write v := by
  intro w s t hvw
  have hopening := h.opening_eq hvw
  match v, w with
  | .bool true, .bool true | .bool false, .bool false => exact ⟨rfl, (String.append_right_inj _).mp hvw⟩
  | .string x, .string y =>
    rw [h.string, h.string] at hvw
    obtain ⟨rfl, rfl⟩ := framed_quoted x hvw
    exact ⟨rfl, rfl⟩
  | .array items, .array items' =>
    have hfirst : ∀ v, ∃ c, (write v).toList.head? = some c ∧ c ≠ ']' := by
      intro v
      exact ⟨v.opening, h.head?_write v, v.opening_ne_closing⟩
    rw [h.array, h.array] at hvw
    obtain ⟨rfl, rfl⟩ := framed_enclosed (by decide) hfirst (by decide) (fun v _ => framed v) hvw
    exact ⟨rfl, rfl⟩
  | .object fields, .object fields' =>
    have hfirst : ∀ f, ∃ c, (field write f).toList.head? = some c ∧ c ≠ '\x7d' := by
      intro f
      exact ⟨ '"', head?_append (head?_append (head?_quoted f.1) ":") (write f.2), by decide⟩
    have hfields : ∀ f ∈ fields, Framed (field write) f := by
      rintro ⟨key, v⟩ hf
      have hsize : sizeOf v < sizeOf fields := by
        have hfield := List.sizeOf_lt_of_mem hf
        rw [Prod.mk.sizeOf_spec] at hfield
        omega
      exact framed_field (framed v)
    rw [h.object, h.object] at hvw
    obtain ⟨rfl, rfl⟩ := framed_enclosed (by decide) hfirst (by decide) hfields hvw
    exact ⟨rfl, rfl⟩
termination_by sizeOf v

theorem injective : Function.Injective write := by
  intro v w hvw
  exact (h.framed v (congrArg (· ++ "") hvw)).1

end WritesCompactly

end Predictive.Text.Json
