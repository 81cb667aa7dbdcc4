import PlanLedger.Json.Binary

/-!
# Writing JSON

Values are written in one line, or with one member or item on each line, indented by two blanks for
each level. Texts escape quotes, backslashes and control characters.
-/

namespace PlanLedger.Json

def hexDigit (n : Nat) : Char := if n < 10 then .ofNat (48 + n) else .ofNat (87 + n)

/-- A character as it is written within a text. -/
def escapeChar (c : Char) : List Char :=
  match c with
  | '"' => ['\\', '"']
  | '\\' => ['\\', '\\']
  | '\n' => ['\\', 'n']
  | '\r' => ['\\', 'r']
  | '\t' => ['\\', 't']
  | '\x08' => ['\\', 'b']
  | '\x0c' => ['\\', 'f']
  | c =>
    if c.toNat < 0x20 then ['\\', 'u', '0', '0', hexDigit (c.toNat / 16), hexDigit (c.toNat % 16)]
    else [c]

def quoted (s : String) : String :=
  String.ofList ('"' :: s.toList.flatMap escapeChar ++ ['"'])

mutual

/-- A value in one line. What has no value is written as `null`. -/
def compact : Json → String
  | null | unreadable => "null"
  | bool true => "true"
  | bool false => "false"
  | integer n => toString n
  | fraction x => x.toPositional
  | string s => quoted s
  | array items => "[" ++ ",".intercalate (compactItems items) ++ "]"
  | object members => "\x7b" ++ ",".intercalate (compactMembers members) ++ "\x7d"

def compactItems : List Json → List String
  | [] => []
  | item :: rest => item.compact :: compactItems rest

/-- The members of an object, each in one line. -/
def compactMembers : List (String × Json) → List String
  | [] => []
  | m :: rest => (quoted m.1 ++ ":" ++ m.2.compact) :: compactMembers rest

end

/-- Parts on lines of their own between brackets. -/
def block (indent : String) (opening closing : String) (parts : List String) : String :=
  if parts.isEmpty then opening ++ closing
  else
    let lines := parts.map fun part ↦ indent ++ "  " ++ part
    opening ++ "\n" ++ ",\n".intercalate lines ++ "\n" ++ indent ++ closing

mutual

/-- A value with its parts on lines of their own, within lines that begin with `indent`. -/
def prettyAt (indent : String) : Json → String
  | array items => block indent "[" "]" (prettyItems (indent ++ "  ") items)
  | object members => block indent "\x7b" "\x7d" (prettyMembers (indent ++ "  ") members)
  | v => v.compact

/-- The items of an array on lines that begin with `indent`. -/
def prettyItems (indent : String) : List Json → List String
  | [] => []
  | item :: rest => item.prettyAt indent :: prettyItems indent rest

/-- The members of an object on lines that begin with `indent`. -/
def prettyMembers (indent : String) : List (String × Json) → List String
  | [] => []
  | m :: rest => (quoted m.1 ++ ": " ++ m.2.prettyAt indent) :: prettyMembers indent rest

end

/-- A value with its parts on lines of their own. -/
def pretty (v : Json) : String := v.prettyAt ""

end PlanLedger.Json
