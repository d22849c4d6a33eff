import Phrasebook.Text.Basic

/-!
# YAML values

Profiles are written in a part of YAML: mappings and sequences in block and in flow style, with
plain and quoted scalars. A scalar keeps its text and whether it is plain, as a plain scalar may
stand for a truth value or for nothing where a quoted one may not.
-/

namespace Phrasebook

/-- A YAML value. -/
inductive Yaml
  /-- A text. -/
  | scalar (plain : Bool) (text : String)
  /-- Some values in order. -/
  | sequence (items : List Yaml)
  /-- Some keys with their values, in order and with repetitions. -/
  | mapping (entries : List (Yaml × Yaml))
  deriving Inhabited, Repr

namespace Yaml

/-- What stands where nothing is written. -/
def absent : Yaml := scalar true ""

/-- Whether nothing is written. -/
def isAbsent : Yaml → Bool
  | scalar true text => text.isEmpty
  | _ => false

/-- The text of a scalar of any kind. -/
def text? : Yaml → Option String
  | scalar _ text => some text
  | _ => none

/-- The truth value of a plain scalar. -/
def bool? : Yaml → Option Bool
  | scalar true text =>
    if ["true", "True", "TRUE"].contains text then some true
    else if ["false", "False", "FALSE"].contains text then some false
    else none
  | _ => none

/-- Whether a plain scalar says that there is nothing. -/
def isNull : Yaml → Bool
  | scalar true text => ["", "~", "null", "Null", "NULL"].contains text
  | _ => false

/-- The items of a sequence; nothing written is no items. -/
def items? : Yaml → Option (List Yaml)
  | sequence items => some items
  | value => if value.isAbsent then some [] else none

/-- The entries of a mapping whose keys are scalars; nothing written is no entries. -/
def entries? : Yaml → Option (List (String × Yaml))
  | mapping entries => entries.mapM fun (key, value) => do return (← key.text?, value)
  | value => if value.isAbsent then some [] else none

/-- The value that the entries give to a name, if any; no name may have two. -/
def field? (entries : List (String × Yaml)) (name : String) : Option (Option Yaml) :=
  match entries.filter (·.1 = name) with
  | [] => some none
  | [(_, value)] => some (some value)
  | _ => none

end Yaml

end Phrasebook
