import BladeStyle.Style.Basic

/-!
# Styles as JSON

The JSON form of a style shows everything that the tree holds.  Objects keep the order
of their members.  The pretty form indents by two spaces, puts every member and element
on a line of its own, and escapes only what JSON requires.
-/

namespace BladeStyle

/-- A JSON value whose numbers are integers. -/
inductive Json where
  | null
  | bool (value : Bool)
  | int (value : Int)
  | string (value : String)
  | array (elements : List Json)
  | object (members : List (String × Json))

namespace Json

/-- A hexadecimal digit in lower case. -/
private def hexDigit (n : Nat) : Char := Nat.digitChar (n % 16)

/-- A character inside a string. -/
def escape (c : Char) : List Char :=
  match c with
  | '"' => ['\\', '"']
  | '\\' => ['\\', '\\']
  | '\x08' => ['\\', 'b']
  | '\x0c' => ['\\', 'f']
  | '\n' => ['\\', 'n']
  | '\r' => ['\\', 'r']
  | '\t' => ['\\', 't']
  | c =>
    if c.toNat < 0x20 then ['\\', 'u', '0', '0', hexDigit (c.toNat / 16), hexDigit c.toNat]
    else [c]

/-- A string between quotes. -/
def quoted (s : String) : String :=
  String.ofList ('"' :: (s.toList.flatMap escape ++ ['"']))

/-- A line feed and the indentation of a level. -/
def newline (level : Nat) : String := String.ofList ('\n' :: List.replicate (2 * level) ' ')

mutual

/-- A value at a level of indentation. -/
def pretty : Json → Nat → String
  | null, _ => "null"
  | bool b, _ => if b then "true" else "false"
  | int n, _ => toString n
  | string s, _ => quoted s
  | array [], _ => "[]"
  | array (e :: es), level =>
    "[" ++ newline (level + 1) ++ pretty e (level + 1) ++ prettyElements es (level + 1)
      ++ newline level ++ "]"
  | object [], _ => "\x7b\x7d"
  | object ((name, e) :: ms), level =>
    "\x7b" ++ newline (level + 1) ++ quoted name ++ ": " ++ pretty e (level + 1)
      ++ prettyMembers ms (level + 1) ++ newline level ++ "\x7d"

/-- The elements after the first. -/
def prettyElements : List Json → Nat → String
  | [], _ => ""
  | e :: es, level => "," ++ newline level ++ pretty e level ++ prettyElements es level

/-- The members after the first. -/
def prettyMembers : List (String × Json) → Nat → String
  | [], _ => ""
  | (name, e) :: ms, level =>
    "," ++ newline level ++ quoted name ++ ": " ++ pretty e level ++ prettyMembers ms level

end

end Json

/-- A kind as JSON, its set in the stored form. -/
def Kind.toJson (k : Kind) : Json :=
  .object
    [ ("categories", .string k.categories.stored),
      ("variadic", .bool k.variadic),
      ("fixed_form", .bool k.fixedForm),
      ("reference", match k.reference with
        | some r => .int r.index
        | none => .null) ]

namespace Style

mutual

/-- A style as JSON. -/
def toJson : Style → Json
  | ⟨name, title, category, fixedForm, params, declared, comment⟩ =>
    .object
      [ ("os_name", .string name),
        ("human_name", .string title),
        ("category", .string category.name),
        ("fixed_form", .bool fixedForm),
        ("params", .array (paramsToJson params)),
        ("declared", .int declared),
        ("comment", .string comment) ]

/-- Parameters as JSON. -/
def paramsToJson : List (Param Style) → List Json
  | [] => []
  | ⟨name, kind, slot, comment⟩ :: params =>
    .object
      [ ("name", .string name),
        ("kind", kind.toJson),
        ("slot", slotToJson slot),
        ("comment", .string comment) ] :: paramsToJson params

/-- A slot as JSON. -/
def slotToJson : Slot Style → Json
  | .number n => .object [("Number", .int n)]
  | .bits b => .object [("Bits", .int b.toNat)]
  | .bool b => .object [("Bool", .bool b)]
  | .empty => .object [("Style", .null)]
  | .child s => .object [("Style", toJson s)]

end

end Style

end BladeStyle
