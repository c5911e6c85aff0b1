import Motion.Fault
import Motion.Lax.Check
import Motion.Record.Settings

/-!
Reading the settings of a conversion. They are given as members of an object under their names, in any
case of letters, and by environment variables under their names with a prefix; where both give a
setting the member wins. Members that are switches tell how variables are looked up (`Lookup`).
-/

set_option autoImplicit false
set_option relaxedAutoImplicit false

namespace Motion

namespace Settings

/-- The names of the settings. -/
def names : List String :=
  ["max_tree_depth", "collapse_groups", "combine_props", "list_precision", "log_level"]

/-- The setting that a name stands for, whatever the case of its letters. -/
def setting? (name : List Char) : Option String :=
  names.find? fun setting => setting.toList = name.map Char.toLower

/-- The members under the names of their settings; a name of no setting stays as it is. Of members
for one setting the first counts. -/
def named (members : Members) : Members :=
  Entries.addAll [] (members.map fun (name, value) => ((setting? name.toList).getD name, value))

/-- How settings are looked up among environment variables. -/
structure Lookup where
  /-- What the names of their variables begin with. -/
  front : List Char
  /-- Whether names have to agree in the case of their letters. -/
  isExact : Bool
  /-- Whether a variable with an empty text counts as missing. -/
  skipsEmpty : Bool
  /-- The text that stands for null. -/
  nullText : Option String

namespace Lookup

/-- What the names of variables begin with where nothing else is told. -/
def defaultFront : List Char := "LOTTIE_AVG_".toList

/-- The members that tell how variables are looked up. -/
def switches : List String :=
  ["_env_prefix", "_env_prefix_target", "_case_sensitive", "_env_ignore_empty",
    "_env_parse_none_str"]

/-- The members about other sources of settings, such as files and arguments. They are accepted, and
those sources are not consulted. -/
def idleSwitches : List String :=
  ["_nested_model_default_partial_update", "_env_file", "_env_file_encoding", "_env_file_depth",
    "_env_nested_delimiter", "_env_nested_max_split", "_env_parse_enums", "_cli_prog_name",
    "_cli_parse_args", "_cli_settings_source", "_cli_parse_none_str", "_cli_hide_none_type",
    "_cli_avoid_json", "_cli_enforce_required", "_cli_use_class_docs_for_groups",
    "_cli_exit_on_error", "_cli_prefix", "_cli_flag_prefix_char", "_cli_implicit_flags",
    "_cli_ignore_unknown_args", "_cli_kebab_case", "_cli_shortcuts", "_secrets_dir",
    "_build_sources"]

/-- Whether the front is meant for the names of settings, and not for other names only. -/
def hasFront : Data → Bool
  | .null => true
  | .str target => target == "variable" || target == "all"
  | _ => false

/-- Whether a member is no setting but a switch. -/
def isSwitch (member : String × Data) : Bool :=
  switches.contains member.1 || idleSwitches.contains member.1

/-- The lookup that members tell. -/
def ofMembers (members : Members) : Except Fault Lookup :=
  let switch (name : String) : Data := (Entries.get? members name).getD .null
  let lookup (front : List Char) : Lookup :=
    { front := if hasFront (switch "_env_prefix_target") then front else []
      isExact := (switch "_case_sensitive").isTruthy
      skipsEmpty := (switch "_env_ignore_empty").isTruthy
      nullText :=
        match switch "_env_parse_none_str" with
        | .str s => some s
        | _ => none }
  match switch "_env_prefix" with
  | .null => .ok (lookup defaultFront)
  | .str front => .ok (lookup front.toList)
  | _ => .error .wrongType

/-- Whether a variable has the name of a setting. -/
def reads (lookup : Lookup) (name setting : String) : Bool :=
  let wanted := lookup.front ++ setting.toList
  if lookup.isExact then name.toList = wanted
  else name.toList.map Char.toLower = wanted.map Char.toLower

/-- The members that environment variables give. Of variables for one setting the last counts. -/
def members (lookup : Lookup) (assignments : List (String × String)) : Members :=
  Entries.putAll [] (assignments.filterMap fun (name, value) =>
    if lookup.skipsEmpty && value.isEmpty then none
    else
      (names.find? (lookup.reads name)).map fun setting =>
        (setting, if lookup.nullText = some value then .null else .str value))

end Lookup

/-- The names of members that are no settings. -/
def extraNames (members : Members) : List String :=
  (Entries.keys members).filter fun name => !names.contains name

/-- The issues of members that are no settings. -/
def checkNames (members : Members) : Checked Unit :=
  match extraNames members with
  | [] => .ok ()
  | extra => .error (extra.map fun name => ⟨[.field name], .extraForbidden⟩)

/-- The settings that members give, with defaults for the others. -/
def check (members : Members) : Checked Settings :=
  let settings (depth : { i : Int // 1 ≤ i ∧ i ≤ greatestDepth }) (collapse combine : Bool)
      (precision : { i : Int // 0 ≤ i }) (level : String) : Settings :=
    ⟨depth, collapse, combine, precision, level, depth.property, precision.property⟩
  let depth :=
    (Check.optionalMember members "max_tree_depth" ⟨default.maxTreeDepth, default.depth_bounds⟩
      (Check.intWithin 1 greatestDepth)).map settings
  let collapse := Checked.apply depth
    (Check.optionalMember members "collapse_groups" default.collapseGroups Check.bool)
  let combine := Checked.apply collapse
    (Check.optionalMember members "combine_props" default.combineProps Check.bool)
  let precision := Checked.apply combine
    (Check.optionalMember members "list_precision"
      ⟨default.listPrecision, default.precision_nonneg⟩ (Check.intFrom 0))
  let level := Checked.apply precision
    (Check.optionalMember members "log_level" default.logLevel Check.string)
  Checked.apply (level.map fun settings _ => settings) (checkNames members)

/-- The settings from members and environment variables. A name with half of a surrogate pair ends
the check of all members. -/
def read (members : Members) (assignments : List (String × String)) : Except Fault Settings := do
  let lookup ← Lookup.ofMembers members
  let given := Entries.addAll (named (members.filter fun member => !Lookup.isSwitch member))
    (lookup.members assignments)
  if !(extraNames given).all (Text.isWhole ·.toList) then
    throw (.invalid [.here .stringUnicode])
  match check given with
  | .ok settings => return settings
  | .error issues => throw (.invalid issues)

end Settings

end Motion
