/-!
# Display

Printed forms of keys and containers: on one line, or with every element on a line of its
own.
-/

namespace RedBlack

/-- A value as it is printed. -/
inductive Display where
  /-- A piece of text. -/
  | atom (text : String)
  /-- Elements between two brackets, separated by commas. -/
  | group (opening closing : String) (items : List Display)
  /-- A key with the value that belongs to it. -/
  | field (key value : Display)

namespace Display

/-! ## Values -/

/-- A whole number in decimal digits. -/
def number (n : Int) : Display :=
  atom (toString n)

/-- The character as it stands between quotes. -/
def escaped : Char → String
  | '"' => "\\\""
  | '\\' => "\\\\"
  | '\n' => "\\n"
  | '\r' => "\\r"
  | '\t' => "\\t"
  | c => String.singleton c

/-- Text between double quotes. -/
def quoted (text : String) : Display :=
  atom ("\"" ++ String.join (text.toList.map escaped) ++ "\"")

/-- A sequence. -/
def list (items : List Display) : Display :=
  group "[" "]" items

/-- A tuple. -/
def tuple (items : List Display) : Display :=
  group "(" ")" items

/-- A map or a set. -/
def collection (items : List Display) : Display :=
  group "\x7b" "\x7d" items

/-! ## Layouts -/

mutual

/-- The form on one line. -/
def inline : Display → String
  | atom text => text
  | group opening closing items => opening ++ ", ".intercalate (inlineAll items) ++ closing
  | field key value => key.inline ++ ": " ++ value.inline

/-- The forms on one line of several values. -/
def inlineAll : List Display → List String
  | [] => []
  | item :: items => item.inline :: inlineAll items

end

mutual

/-- The form with every element on a line of its own, four blanks further in than the
brackets and followed by a comma. Lines after the first start with `margin`. -/
def block (margin : String) : Display → String
  | atom text => text
  | group opening closing [] => opening ++ closing
  | group opening closing (item :: items) =>
    opening ++ "\n" ++ blockAll (margin ++ "    ") (item :: items) ++ margin ++ closing
  | field key value => key.block margin ++ ": " ++ value.block margin

/-- The lines of several elements. -/
def blockAll (margin : String) : List Display → String
  | [] => ""
  | item :: items => margin ++ item.block margin ++ ",\n" ++ blockAll margin items

end

end Display

end RedBlack
