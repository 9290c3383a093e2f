import BlockScript.Program.Imports
import BlockScript.Rules.Statements

namespace BlockScript

/-- The fragments of the setup section, the branch of the drawing last. -/
def Session.setupLines (s : Session) : List String :=
  let tag := Value.text Scene.userSetupTag
  let own := (s.setups.erase tag).values
  match s.setups.get? tag with
  | some code => if code.isEmpty then own else own ++ [Text.trimEnd code]
  | none => own

def Session.setupSection (s : Session) (settings : Settings) : List String :=
  let lines := s.setupLines
  if lines.isEmpty then [] else [settings.setupHeader ++ "\n" ++ Text.joined "\n" lines]

/-- The parts of the program in order: imports, variables, declarations, functions, setup, body. -/
def Session.sections (s : Session) (settings : Settings) (body : String) : List String :=
  [Text.joined "\n" (mergeImports s.imports.values),
    Text.joined "\n" s.globals.values,
    Text.joined "\n" s.declarations.values,
    Text.joined "\n\n" (s.functions.values.map Text.trimEnd)] ++
  s.setupSection settings ++
  [settings.bodyHeader ++ "\n" ++ body]

/-- Sections with an empty line between them; blank ones are left out. -/
def layOut (sections : List String) : String :=
  Text.joined "\n\n" ((sections.filter (!Text.isBlankText ·)).map Text.trimEnd) ++ "\n"

def Session.program (s : Session) (settings : Settings) (body : String) : String :=
  layOut (s.sections settings body)

/-- The program around a body. The session is closed. -/
def Run.assemble (settings : Settings) (body : String) : Run String := do
  let code := (← get).program settings body
  Run.close
  Run.record (.info ("Generated " ++ toString (Text.lineBreaks code) ++ " lines of MicroPython"))
  return code

end BlockScript
