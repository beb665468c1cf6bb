import Predictive.Text.Layout

/-!
# JSON text

A value is written without blanks, and the fields of an object in their order. A
string is written between quotes; only the quote, the backslash and the control
characters below U+0020 are escaped. `WritesCompactly` says so, and `Value.write`
is a writer that does it.
-/

namespace Predictive.Text.Json

inductive Value where
  | bool (b : Bool)
  | string (s : String)
  | array (items : List Value)
  | object (fields : List (String × Value))

def Value.strings (items : List String) : Value := .array (items.map .string)

def escapeChar (c : Char) : List Char :=
  match c with
  | '"' => [ '\\', '"']
  | '\\' => [ '\\', '\\']
  | '\x08' => [ '\\', 'b']
  | '\x0c' => [ '\\', 'f']
  | '\n' => [ '\\', 'n']
  | '\r' => [ '\\', 'r']
  | '\t' => [ '\\', 't']
  | _ =>
    if c.toNat < 0x20 then
      [ '\\', 'u', '0', '0', Nat.digitChar (c.toNat / 16), Nat.digitChar (c.toNat % 16)]
    else [c]

def quoted (s : String) : String :=
  "\"" ++ String.ofList (s.toList.flatMap escapeChar) ++ "\""

example : quoted "\"ε\\\t\x1f" = "\"\\\"ε\\\\\\t\\u001f\"" := by decide

/-- The parts between two brackets, with a comma between one and the next. -/
def enclosed (opening closing : String) (parts : List String) : String := opening ++ ",".intercalate parts ++ closing

def field (write : Value → String) (f : String × Value) : String := quoted f.1 ++ ":" ++ write f.2

structure WritesCompactly (write : Value → String) : Prop where
  bool : ∀ b, write (.bool b) = truthValue b
  string : ∀ s, write (.string s) = quoted s
  array : ∀ items, write (.array items) = enclosed "[" "]" (items.map write)
  object : ∀ fields, write (.object fields) = enclosed "\x7b" "\x7d" (fields.map (field write))

mutual

def Value.write : Value → String
  | .bool b => truthValue b
  | .string s => quoted s
  | .array items => enclosed "[" "]" (writeItems items)
  | .object fields => enclosed "\x7b" "\x7d" (writeFields fields)

def writeItems : List Value → List String
  | [] => []
  | v :: items => v.write :: writeItems items

def writeFields : List (String × Value) → List String
  | [] => []
  | (key, v) :: fields => (quoted key ++ ":" ++ v.write) :: writeFields fields

end

theorem writeItems_eq (items : List Value) : writeItems items = items.map Value.write := by
  induction items with
  | nil => rfl
  | cons v items ih => rw [writeItems, ih, List.map_cons]

theorem writeFields_eq (fields : List (String × Value)) : writeFields fields = fields.map (field Value.write) := by
  induction fields with
  | nil => rfl
  | cons f fields ih => rw [writeFields, ih, List.map_cons, field]

theorem writesCompactly_write : WritesCompactly Value.write where
  bool _ := by rw [Value.write]
  string _ := by rw [Value.write]
  array items := by rw [Value.write, writeItems_eq]
  object fields := by rw [Value.write, writeFields_eq]

end Predictive.Text.Json
