namespace BlockScript

/-- The families of blocks that apply one function to one number. -/
inductive UnaryFamily where
  | single
  | round
  | trig
deriving DecidableEq, Inhabited

/-- The kinds of blocks that have a meaning of their own. -/
inductive BlockKind where
  | number
  | arithmetic
  | unary (family : UnaryFamily)
  | constant
  | property
  | change
  | modulo
  | constrain
  | randomWhole
  | randomFraction
  | compare
  | logic
  | negate
  | boolean
  | null
  | ternary
  | text
  | join
  | length
  | isEmpty
  | variableGet
  | variableSet
  | cast
  /-- Rescales a reading. -/
  | rescale
  | conditional (alwaysElse : Bool)
  | repetition
  | whileUntil
  | counting
  | forEach
  | flow
  | delayMillis
  | delayMicros
  | clockMillis
  | clockMicros
  /-- Stops for ever. -/
  | halt
  | procedure (returns : Bool)
  | callValue
  | callLine
  | returnIf
  /-- The branches that run once and for ever. -/
  | entry
  | digitalWrite
  | digitalRead
  | builtinLed
  | level
  | analogWrite
  | analogRead
  | pulse (timeout : Bool)
  | tone
  | silence
  | servoWrite
  | servoRead
  | stepperSetup
  | stepperMove
  | serialPrint
  | serialSetup
  /-- A value block that is not written out. -/
  | blankValue
  /-- A statement block that is not written out. -/
  | blankLine
deriving DecidableEq, Inhabited

namespace BlockKind

/-- The kinds by block type. -/
def table : List (String × BlockKind) :=
  [("math_number", number),
    ("math_arithmetic", arithmetic),
    ("math_single", unary .single),
    ("math_round", unary .round),
    ("math_trig", unary .trig),
    ("math_constant", constant),
    ("math_number_property", property),
    ("math_change", change),
    ("math_modulo", modulo),
    ("math_constrain", constrain),
    ("math_random_int", randomWhole),
    ("math_random_float", randomFraction),
    ("math_on_list", blankValue),
    ("logic_compare", compare),
    ("logic_operation", logic),
    ("logic_negate", negate),
    ("logic_boolean", boolean),
    ("logic_null", null),
    ("logic_ternary", ternary),
    ("text", text),
    ("text_join", join),
    ("text_length", length),
    ("text_isEmpty", isEmpty),
    ("variables_get", variableGet),
    ("variables_set", variableSet),
    ("variables_set_type", cast),
    ("base_map", rescale),
    ("controls_if", conditional false),
    ("controls_ifelse", conditional true),
    ("controls_repeat", repetition),
    ("controls_repeat_ext", repetition),
    ("controls_whileUntil", whileUntil),
    ("controls_for", counting),
    ("controls_forEach", forEach),
    ("controls_flow_statements", flow),
    ("time_delay", delayMillis),
    ("time_delaymicros", delayMicros),
    ("time_millis", clockMillis),
    ("time_micros", clockMicros),
    ("infinite_loop", halt),
    ("procedures_defreturn", procedure true),
    ("procedures_defnoreturn", procedure false),
    ("procedures_callreturn", callValue),
    ("procedures_callnoreturn", callLine),
    ("procedures_ifreturn", returnIf),
    ("arduino_functions", entry),
    ("io_digitalwrite", digitalWrite),
    ("io_digitalread", digitalRead),
    ("io_builtin_led", builtinLed),
    ("io_highlow", level),
    ("io_analogwrite", analogWrite),
    ("io_analogread", analogRead),
    ("io_pulsein", pulse false),
    ("io_pulsetimeout", pulse true),
    ("io_tone", tone),
    ("io_notone", silence),
    ("servo_write", servoWrite),
    ("servo_read", servoRead),
    ("stepper_config", stepperSetup),
    ("stepper_step", stepperMove),
    ("serial_print", serialPrint),
    ("serial_setup", serialSetup),
    ("lists_create_empty", blankValue),
    ("lists_create_with", blankValue),
    ("lists_repeat", blankValue),
    ("lists_length", blankValue),
    ("lists_isEmpty", blankValue),
    ("lists_indexOf", blankValue),
    ("lists_getIndex", blankValue),
    ("lists_getSublist", blankValue),
    ("lists_setIndex", blankLine),
    ("colour_picker", blankValue),
    ("colour_random", blankValue),
    ("colour_rgb", blankValue),
    ("colour_blend", blankValue)]

def ofType? (type : String) : Option BlockKind :=
  table.lookup type

/-- Blocks that give a variable a new value. -/
def assigns : BlockKind → Bool
  | variableSet | counting | forEach | change => true
  | _ => false

end BlockKind

end BlockScript
