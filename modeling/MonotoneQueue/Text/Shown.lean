/- The text of a single value inside a description: words and integers in decimal, strings in
   quotes. -/
namespace MonotoneQueue.Text

/-- Values that a description can mention. -/
class Shown (α : Type) where
  shown : α → String

export Shown (shown)

instance {w : Nat} : Shown (BitVec w) := ⟨fun x => toString x.toNat⟩
instance : Shown Int64 := ⟨fun x => toString x.toInt⟩
instance : Shown Nat := ⟨toString⟩

/-! Quoted strings. -/

/-- A character as it stands between quotes: the quote, the backslash and the control characters
    of ASCII are escaped, the latter by a short name if they have one and by number otherwise. -/
def quotedChar (c : Char) : String :=
  if c = '"' then "\\\""
  else if c = '\\' then "\\\\"
  else if c = '\n' then "\\n"
  else if c = '\t' then "\\t"
  else if c = '\r' then "\\r"
  else if c.toNat = 0 then "\\0"
  else if c.toNat < 32 ∨ c.toNat = 127 then
    "\\u\x7b" ++ String.ofList (Nat.toDigits 16 c.toNat) ++ "\x7d"
  else String.singleton c

/-- A string between quotes. -/
def quoted (s : String) : String :=
  "\"" ++ String.join (s.toList.map quotedChar) ++ "\""

instance : Shown String := ⟨quoted⟩

example : quoted "it's \"é\"\n" = "\"it's \\\"é\\\"\\n\"" := by decide +kernel

example : quoted "\x00\x01" = "\"\\0\\u\x7b1\x7d\"" := by decide +kernel

end MonotoneQueue.Text
