import Mapsmith.Format.Fields

/-!
# Triggers

Triggers made in the editor, and the script texts of custom ones. Blocks nest: a
block has child blocks, and a parameter may call a function, which is a block
again. How many parameters a block has is not in the file; it is looked up under
the name of the function.
-/

namespace Mapsmith.Triggers

open Fields

/-- The table of the number of parameters of each function. -/
def parameterCounts : String := "trigger_parameters"

/-- The recursive parts of a trigger, as slots of the schema. -/
inductive Part where
  | parameter
  | block
  | branch
  | child
  deriving DecidableEq, Repr

namespace Part

def slot : Part → Nat
  | .parameter => 0
  | .block => 1
  | .branch => 2
  | .child => 3

def reference (part : Part) : FieldType := .lazy part.slot

end Part

def blockType : FieldType :=
  enumeration integer [("EVENT", 0), ("CONDITION", 1), ("ACTION", 2), ("FUNCTION_CALL", 3)]

/-- The fields of a block from its function on. -/
def blockBody : List (String × FieldType) :=
  [("function_name", .text),
    ("is_function_enabled", integer),
    ("parameters",
      .array (.lookup parameterCounts (.ofText "function_name")) Part.parameter.reference),
    ("child_blocks_count", integer),
    ("child_blocks", counted "child_blocks_count" Part.child.reference)]

def block : FieldType := .record "TriggerBlock" ([("type", blockType)] ++ blockBody)

/-- A branch of a condition, which says which branch it is. -/
def branch : FieldType :=
  .record "TriggerIfThenElseBlock"
    ([("type", blockType),
      ("branch_type", enumeration integer [("IF", 0), ("THEN", 1), ("ELSE", 2)])] ++ blockBody)

def parameter : FieldType :=
  .record "TriggerBlockParameter"
    [("type", enumeration integer
        [("PRESET", 0), ("VARIABLE", 1), ("FUNCTION", 2), ("CONSTANT", 3)]),
      ("value", .text),
      ("functions_count", integer),
      ("functions", counted "functions_count" Part.block.reference),
      ("array_indices_count", integer),
      ("array_indices", counted "array_indices_count" Part.parameter.reference)]

/-- A child block is a branch if it reads as one, and a plain block otherwise. -/
def child : FieldType :=
  .select [Part.branch.reference, Part.block.reference]

def definitions : Nat → FieldType
  | 0 => parameter
  | 1 => block
  | 2 => branch
  | _ => child

def magic : Bytes := [0x57, 0x54, 0x47, 0x21]

def schema : Schema where
  name := "TriggersFile"
  definitions := definitions
  fields :=
    [("file_id", .magic magic),
      ("version", integer),
      ("trigger_categories_count", integer),
      ("trigger_categories", counted "trigger_categories_count" (.record "TriggerCategory"
        [("index", integer), ("name", .text), ("is_comment", integer)])),
      ("unknown_field_1", integer),
      ("trigger_variables_count", integer),
      ("trigger_variables", counted "trigger_variables_count" (.record "TriggerVariable"
        [("name", .text),
          ("type", .text),
          ("unknown_field_1", integer),
          ("is_array", integer),
          ("array_size", integer),
          ("is_initialized", integer),
          ("initial_value", .text)])),
      ("triggers_count", integer),
      ("triggers", counted "triggers_count" (.record "Trigger"
        [("name", .text),
          ("description", .text),
          ("is_comment", integer),
          ("is_enabled", integer),
          ("is_custom_text_trigger", integer),
          ("is_turned_off", integer),
          ("is_init", integer),
          ("category_index", integer),
          ("blocks_count", integer),
          ("blocks", counted "blocks_count" Part.block.reference)]))]

/-- The text of a custom trigger; its size counts the null byte. -/
def customTrigger : FieldType :=
  .record "CustomTrigger" [("code_size", integer), ("code", .text)]

def customSchema : Schema where
  name := "CustomTriggersFile"
  fields :=
    [("version", integer),
      ("script_header_comment", .text),
      ("script_header_trigger", customTrigger),
      ("triggers_count", integer),
      ("triggers", counted "triggers_count" customTrigger)]

end Mapsmith.Triggers
