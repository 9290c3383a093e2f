import BlockScript.Proofs.Forests
import BlockScript.Proofs.FunctionStock
import BlockScript.Proofs.SpokenPrograms

namespace BlockScript

open Run

variable {n : Nat}

/-- The names that programs may use without binding them. -/
def builtinNames : List String :=
  ["ArithmeticError", "AssertionError", "AttributeError", "BaseException", "BaseExceptionGroup", "BlockingIOError",
    "BrokenPipeError", "BufferError", "BytesWarning", "ChildProcessError", "ConnectionAbortedError",
    "ConnectionError", "ConnectionRefusedError", "ConnectionResetError", "DeprecationWarning", "EOFError",
    "Ellipsis", "EncodingWarning", "EnvironmentError", "Exception", "ExceptionGroup", "False", "FileExistsError",
    "FileNotFoundError", "FloatingPointError", "FutureWarning", "GeneratorExit", "IOError", "ImportError",
    "ImportWarning", "IndentationError", "IndexError", "InterruptedError", "IsADirectoryError", "KeyError",
    "KeyboardInterrupt", "LookupError", "MemoryError", "ModuleNotFoundError", "NameError", "None",
    "NotADirectoryError", "NotImplemented", "NotImplementedError", "OSError", "OverflowError",
    "PendingDeprecationWarning", "PermissionError", "ProcessLookupError", "RecursionError", "ReferenceError",
    "ResourceWarning", "RuntimeError", "RuntimeWarning", "StopAsyncIteration", "StopIteration", "SyntaxError",
    "SyntaxWarning", "SystemError", "SystemExit", "TabError", "TimeoutError", "True", "TypeError",
    "UnboundLocalError", "UnicodeDecodeError", "UnicodeEncodeError", "UnicodeError", "UnicodeTranslateError",
    "UnicodeWarning", "UserWarning", "ValueError", "Warning", "ZeroDivisionError", "__build_class__", "__debug__",
    "__doc__", "__import__", "__loader__", "__name__", "__package__", "__spec__", "abs", "aiter", "all", "anext",
    "any", "ascii", "bin", "bool", "breakpoint", "bytearray", "bytes", "callable", "chr", "classmethod", "compile",
    "complex", "copyright", "credits", "delattr", "dict", "dir", "divmod", "enumerate", "eval", "exec", "exit",
    "filter", "float", "format", "frozenset", "getattr", "globals", "hasattr", "hash", "help", "hex", "id", "input",
    "int", "isinstance", "issubclass", "iter", "len", "license", "list", "locals", "map", "max", "memoryview",
    "min", "next", "object", "oct", "open", "ord", "pow", "print", "property", "quit", "range", "repr", "reversed",
    "round", "set", "setattr", "slice", "sorted", "staticmethod", "str", "sum", "super", "tuple", "type", "vars",
    "zip"]

/-- The modules that rules bring in, and the names that they take from modules. -/
def importedNames : List String :=
  ["math", "random", "time", "machine", "micropython", "Pin", "PWM", "ADC", "UART", "time_pulse_us", "const"]

namespace Workspace

/-- A variable or a procedure of the drawing has the identifier in its program. -/
def Spells (w : Workspace n) (x : String) : Prop :=
  ∃ σ τ body l, Generator.start {} w = .ok σ ∧ (Generator.body {} w).run σ = (.ok body, τ) ∧ l.realm ≠ .generated ∧
    τ.names.find? l = some x

/-- The program speaks of a name by itself: it does so even if no identifier may be that name. -/
def Relies (w : Workspace n) (x : String) : Prop :=
  ∃ out, Generator.generate { settings := { extraReserved := [x] } } w = .ok out ∧ x ∈ spokenNames out.code

end Workspace

/-- The only names that a function takes for granted and that are not reserved. -/
theorem FunctionText.granted_words : ∀ f ∈ all, ∀ x ∈ f.words, x ∈ builtinNames ++ importedNames → x ∉ reservedWords →
    f.preferred = "stepper_step" ∧ x = "zip" ∨ f.preferred = "math_isPrime" ∧ x ∈ ["TypeError", "ValueError"] := by
  simp only [all, List.forall_mem_cons]
  -- one function at a time: read all at once, their texts take the kernel some gigabytes
  refine ⟨?_, ?_, ?_, ?_, ?_, ?_, ?_⟩ <;> decide +kernel

/-- The two functions belong to one kind of block each. -/
theorem BlockKind.eq_of_function {kind : BlockKind} {f : FunctionText} (hf : f ∈ kind.functions) :
    (f.preferred = "stepper_step" → kind = .stepperMove) ∧ (f.preferred = "math_isPrime" → kind = .property) := by
  cases kind <;> simp only [functions, List.not_mem_nil, List.mem_cons, or_false] at hf
  case counting => obtain rfl | rfl := hf <;> decide
  all_goals
    subst hf
    decide

namespace Workspace

variable {w : Workspace n} {x : String}

theorem Spells.not_foreign (h : w.Spells x) : ¬ Foreign x := by
  obtain ⟨σ, τ, body, l, hstart, hbody, -, hfind⟩ := h
  have hτ := (Generator.body_stocks {} w).of_run hbody (Generator.start_stocked hstart)
  exact (hτ.plain.names l x hfind).not_foreign

/-- A program relies on no identifier of the drawing, except for the names that two of the functions take for granted. -/
theorem relied_not_spelled (hx : x ∈ builtinNames ++ importedNames)
    (halone : ∀ i, w.Reachable i → (w.block i).isValue = true → (w.block i).next = none)
    (hraw : ∀ i, w.Reachable i → ∀ kind ∈ (w.block i).kind?, ∀ text ∈ (w.block i).rawTexts kind, Quiet (· ≠ x) text)
    (hsteps : x = "zip" → ∀ i, w.Reachable i → (w.block i).kind? ≠ some .stepperMove)
    (hproperties : x ∈ ["TypeError", "ValueError"] → ∀ i, w.Reachable i → (w.block i).kind? ≠ some .property)
    (h : w.Relies x) : ¬ w.Spells x := by
  intro hspells
  have hforeign := hspells.not_foreign
  obtain ⟨out, hout, hspoken⟩ := h
  obtain ⟨σ, τ, body, hstart, hbody, hcode⟩ := Generator.code_of_generate hout
  have hwords : ∀ i, w.Reachable i → ∀ kind ∈ (w.block i).kind?, ∀ f ∈ kind.functions, ∀ y ∈ f.words, y ≠ x := by
    rintro i hi kind hkind f hf y hy rfl
    have hreserved : y ∉ reservedWords := fun hmem => hforeign (Or.inl hmem)
    obtain ⟨hpreferred, rfl⟩ | ⟨hpreferred, herror⟩ :=
      FunctionText.granted_words f (kind.functions_subset hf) y hy hx hreserved
    · obtain rfl := (BlockKind.eq_of_function hf).1 hpreferred
      exact hsteps rfl i hi hkind
    · obtain rfl := (BlockKind.eq_of_function hf).2 hpreferred
      exact hproperties herror i hi hkind
  have hvocal : (Generator.job { settings := { extraReserved := [x] } } w).Vocal (· ≠ x) True False w.Reachable :=
    ⟨⟨[x], rfl⟩, rfl, hwords, fun _ hi _ hj => hi.child hj, halone, fun _ => hraw, False.elim⟩
  have hfree : ∀ y, y ∉ ({ extraReserved := [x] } : Settings).reserved → y ≠ x := by
    rintro y hy rfl
    exact hy (by simp [Settings.reserved])
  have htops : ∀ i ∈ w.orderedTops, w.Reachable i := fun i hi => mem_allBlocks_iff.mp (mem_allBlocks hi)
  obtain ⟨hlines, hvoices⟩ := hvocal.body_tells htops hbody (Generator.start_voices hfree hstart)
  rw [hcode] at hspoken
  obtain hword | hother := hvoices.program trivial (hlines trivial) x hspoken
  · exact hforeign hword
  · exact hother rfl

end Workspace

theorem Workspace.relies_of_spoken {w : Workspace n} {x : String}
    (h : (Generator.generate { settings := { extraReserved := [x] } } w).toOption.any
      (fun out => decide (x ∈ spokenNames out.code)) = true) : w.Relies x := by
  cases hout : Generator.generate { settings := { extraReserved := [x] } } w with
  | error f =>
    rw [hout] at h
    cases h
  | ok out =>
    rw [hout] at h
    exact ⟨out, hout, of_decide_eq_true h⟩

/-- A variable that is called like a function which loops need, set in a loop. -/
def rangeVariable : Workspace 2 where
  diagram := { blocks := #v[
    { type := "controls_repeat", id := "r", fields := [("TIMES", .text "3")], slots := [⟨"DO", .statement, some 1⟩] },
    { type := "variables_set", id := "s", fields := [("VAR", .text "range")] }] : Diagram 2 }
  tops := [0]

theorem rangeVariable_not_spelled : "range" ∈ builtinNames ∧ rangeVariable.Relies "range" ∧
    rangeVariable.allVariables.toOption.any (·.contains (.text "range")) = true ∧ ¬ rangeVariable.Spells "range" := by
  have hbuiltin : "range" ∈ builtinNames := by decide +kernel
  have hrelies : rangeVariable.Relies "range" := Workspace.relies_of_spoken (by decide +kernel)
  have halone : ∀ i, (rangeVariable.block i).isValue = true → (rangeVariable.block i).next = none := by decide +kernel
  have hraw : ∀ i, ∀ kind ∈ (rangeVariable.block i).kind?, ∀ text ∈ (rangeVariable.block i).rawTexts kind,
      Quiet (· ≠ "range") text := by decide +kernel
  exact ⟨hbuiltin, hrelies, by decide +kernel, Workspace.relied_not_spelled (List.mem_append_left _ hbuiltin)
    (fun i _ => halone i) (fun i _ => hraw i) (fun h => absurd h (by decide)) (fun h => absurd h (by decide)) hrelies⟩

/-- Below its header, a function speaks of its words whatever its name is. -/
theorem FunctionText.spoken_named {f : FunctionText} (hf : f ∈ all) {line : Nat × String} (hline : line ∈ f.lines.tail)
    {x : String} (hx : x ∈ spokenNames line.2) (y : String) : x ∈ spokenNames (Functions.named y (f.text "    ")) := by
  obtain ⟨args, ls, -, hlines, -, -, -, -, hnamed⟩ := (proper_of_mem hf).named
  rw [hlines, List.tail_cons] at hline
  rw [show f.text "    " = body f.lines from rfl, hnamed, spokenNames, Text.readLines_append_line, List.flatten_append,
    body, Text.readLines_joined lineNames_passesBlanks]
  refine List.mem_append_right _ ?_
  rw [← spokenNames_repeated line.1 line.2, spokenNames] at hx
  obtain ⟨names, hnames, hx⟩ := List.mem_flatten.mp hx
  exact List.mem_flatten.mpr ⟨names, List.mem_flatMap.mpr ⟨_, List.mem_map_of_mem hline, hnames⟩, hx⟩

/-- A program speaks of what its functions speak of. -/
theorem Session.spoken_program {s : Session} {code x : String} (hcode : code ∈ s.functions.values)
    (hx : x ∈ spokenNames code) (body : String) : x ∈ spokenNames (s.program {} body) := by
  rw [spokenNames] at hx
  obtain ⟨names, hnames, hx⟩ := List.mem_flatten.mp hx
  rw [spokenNames, Session.readLines_program lineNames_passesBlanks rfl]
  refine List.mem_flatten.mpr ⟨names, List.mem_append_left _ (List.mem_flatMap.mpr ?_), hx⟩
  refine ⟨Text.joined "\n\n" (s.functions.values.map Text.trimEnd), by simp [front], ?_⟩
  rw [Text.readLines_joined_apart lineNames_passesBlanks]
  refine List.mem_flatMap.mpr ⟨_, List.mem_map_of_mem hcode, ?_⟩
  rwa [Text.readLines_trimEnd lineNames_passesBlanks]

/-- A program relies on the words of its functions. -/
theorem Workspace.relies_of_function {w : Workspace n} {f : FunctionText} (hf : f ∈ FunctionText.all)
    {line : Nat × String} (hline : line ∈ f.lines.tail) {x : String} (hx : x ∈ spokenNames line.2)
    (hout : (Generator.generate { settings := { extraReserved := [x] } } w).toOption.isSome = true)
    (hprovided : (Generator.start { settings := { extraReserved := [x] } } w).toOption.any (fun σ =>
      ((Generator.body { settings := { extraReserved := [x] } } w).run σ).2.functions.texts.contains f.preferred) = true) :
    w.Relies x := by
  cases hgen : Generator.generate { settings := { extraReserved := [x] } } w with
  | error f =>
    rw [hgen] at hout
    cases hout
  | ok out =>
    obtain ⟨σ, τ, body, hstart, hbody, hcode⟩ := Generator.code_of_generate hgen
    rw [hstart, Except.toOption, Option.any_some, hbody, Ledger.contains_eq] at hprovided
    obtain ⟨text, htext⟩ := Option.isSome_iff_exists.mp hprovided
    have hτ := (Generator.body_stocks _ w).of_run hbody (Generator.start_stocked hstart)
    obtain ⟨g, hg, hpreferred, y, -, rfl⟩ := hτ.texts _ _ htext
    obtain rfl := FunctionText.eq_of_preferred hg hf hpreferred
    refine ⟨out, hgen, ?_⟩
    rw [hcode]
    exact Session.spoken_program (List.mem_append_left _ (Ledger.mem_values_of_get? htext))
      (FunctionText.spoken_named hg hline hx y) body

/-- A variable that is called like a function which the steps of a motor need. -/
def zipVariable : Workspace 4 where
  diagram := { blocks := #v[
    { type := "variables_set", id := "s", fields := [("VAR", .text "zip")], slots := [⟨"VALUE", .value, some 1⟩],
      next := some 2 },
    { type := "math_number", id := "n", fields := [("NUM", .int 1)], hasOutput := true },
    { type := "stepper_step", id := "m", slots := [⟨"STEPPER_STEPS", .value, some 3⟩] },
    { type := "math_number", id := "t", fields := [("NUM", .int 10)], hasOutput := true }] : Diagram 4 }
  tops := [0]

theorem zipVariable_spells : zipVariable.Spells "zip" := by
  have hrun : (Generator.start {} zipVariable).toOption.any (fun σ =>
      ((Generator.body {} zipVariable).run σ).1.toOption.isSome &&
        ((Generator.body {} zipVariable).run σ).2.names.find? ⟨.variable, .text "zip"⟩ == some "zip") = true := by
    decide +kernel
  cases hstart : Generator.start {} zipVariable with
  | error f =>
    rw [hstart] at hrun
    cases hrun
  | ok σ =>
    rw [hstart, Except.toOption, Option.any_some, Bool.and_eq_true, beq_iff_eq] at hrun
    obtain ⟨hbody, hfind⟩ := hrun
    cases hresult : ((Generator.body {} zipVariable).run σ).1 with
    | error f =>
      rw [hresult] at hbody
      cases hbody
    | ok body => exact ⟨σ, _, body, _, hstart, Prod.ext hresult rfl, by simp, hfind⟩

/-- The variable takes the name of the function on which the program relies. -/
theorem zipVariable_shadows : "zip" ∈ builtinNames ∧ zipVariable.Relies "zip" ∧ zipVariable.Spells "zip" := by
  have hline : (2, "for pin, level in zip(pins, sequence[stepper['position']]):") ∈ FunctionText.stepperMove.lines.tail := by
    decide +kernel
  have hspoken : "zip" ∈ spokenNames "for pin, level in zip(pins, sequence[stepper['position']]):" := by decide +kernel
  exact ⟨by decide +kernel, Workspace.relies_of_function (by simp [FunctionText.all]) hline hspoken (by decide +kernel)
    (by decide +kernel), zipVariable_spells⟩

end BlockScript
