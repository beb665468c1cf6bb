/-!
# Layout of plain text

Columns are measured in bytes and filled in characters: a column is as wide as
the UTF-8 form of its widest text, and a text is put to the right of it with
one blank for each character that is missing.
-/

namespace Predictive.Text

/-- The text at the right end of `width` characters, whole if it is longer. -/
def padLeft (width : Nat) (s : String) : String := String.ofList (s.toList.leftpad width ' ')

/-- The widest that a text may be asked to be put to the right of. -/
def widthLimit : Nat := 65535

def padLeft? (width : Nat) (s : String) : Option String := if width ≤ widthLimit then some (padLeft width s) else none

/-- The width of a column that holds the texts, in bytes. -/
def widest (texts : List String) : Nat := (texts.map String.utf8ByteSize).foldl max 0

def unwords (parts : List String) : String := " ".intercalate parts

def unlines (lines : List String) : String := "\n".intercalate lines

def truthValue (b : Bool) : String := if b then "true" else "false"

def replaceChar (c : Char) (replacement : String) (s : String) : String :=
  String.ofList (s.toList.flatMap fun d => if d = c then replacement.toList else [d])

theorem toList_padLeft (width : Nat) (s : String) :
    (padLeft width s).toList = List.replicate (width - s.length) ' ' ++ s.toList := by
  simp [padLeft, List.leftpad, String.length_toList]

theorem length_padLeft (width : Nat) (s : String) : (padLeft width s).length = max width s.length := by
  rw [← String.length_toList, toList_padLeft, List.length_append, List.length_replicate,
    String.length_toList]
  omega

theorem length_le_utf8ByteSize (s : String) : s.length ≤ s.utf8ByteSize := by
  have key : ∀ cs : List Char, cs.length ≤ (String.ofList cs).utf8ByteSize := by
    intro cs
    induction cs with
    | nil => exact Nat.zero_le _
    | cons c cs ih =>
      have hc := c.utf8Size_pos
      rw [String.ofList_cons, String.utf8ByteSize_append, String.utf8ByteSize_singleton, List.length_cons]
      omega
  have h := key s.toList
  rwa [String.ofList_toList, String.length_toList] at h

theorem utf8ByteSize_le_widest {s : String} {texts : List String} (h : s ∈ texts) : s.utf8ByteSize ≤ widest texts := by
  unfold widest
  rw [List.foldl_max]
  exact Nat.le_trans (List.le_max?_getD_of_mem (List.mem_map_of_mem h)) (Nat.le_max_right _ _)

/-- A column of bytes is wide enough for the characters of each of its texts. -/
theorem length_le_widest {s : String} {texts : List String} (h : s ∈ texts) : s.length ≤ widest texts :=
  Nat.le_trans (length_le_utf8ByteSize s) (utf8ByteSize_le_widest h)

theorem head?_append {s : String} {c : Char} (h : s.toList.head? = some c) (t : String) :
    (s ++ t).toList.head? = some c := by
  rw [String.toList_append, List.head?_append, h, Option.some_or]

theorem head?_intercalate {s : String} {c : Char} (h : s.toList.head? = some c) (sep : String) (later : List String) :
    (sep.intercalate (s :: later)).toList.head? = some c := by
  cases later with
  | nil => rwa [String.intercalate_singleton]
  | cons t later =>
    rw [String.intercalate_cons_cons, String.append_assoc]
    exact head?_append h _

end Predictive.Text
