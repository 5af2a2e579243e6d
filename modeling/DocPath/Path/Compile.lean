import DocPath.Delimiters.Validation
import DocPath.Path.Outline

/-!
# DocPath.Path.Compile

From text to paths. The steps of a path are those of its outline; an alternation is built from its
texts, each compiled as a path of its own. The texts of alternatives are shorter than the whole, so
this ends. A `Compiler` holds delimiters that can be told apart.
-/

namespace DocPath

open DocPath.Text

/-- The operations that a text spells. -/
def compileOps (d : Delimiters) (text : List Char) : Except CompileError (List Op) :=
  match _h : outline d text with
  | .error e => .error e
  | .ok o =>
    let steps := o.steps.map Op.step
    if o.alternatives.isEmpty then .ok steps
    else
      match o.alternatives.attach.mapM fun part => compileOps d (trim part.1) with
      | .error e => .error e
      | .ok paths =>
        match Op.ofPaths? (paths.map Path.mk) with
        | .error e => .error e
        | .ok op => .ok (steps ++ [op])
termination_by text.length
decreasing_by
  exact Nat.lt_of_le_of_lt (length_trim_le _) (length_lt_of_mem_alternatives _h part.2)

/-- Compiles texts in given delimiters, which can be told apart. -/
structure Compiler where
  delimiters : Delimiters
  valid : delimiters.validate = .ok ()

namespace Compiler

/-- The compiler for given delimiters. -/
def ofDelimiters? (d : Delimiters) : Except DelimiterError Compiler :=
  match h : d.validate with
  | .error e => .error e
  | .ok () => .ok ⟨d, h⟩

/-- The compiler for the default delimiters. -/
def standard : Compiler := ⟨.standard, Delimiters.validate_standard⟩

/-- The path that a text spells. -/
def compile (c : Compiler) (text : String) : Except CompileError Path :=
  (compileOps c.delimiters text.toList).map Path.mk

end Compiler

/-- The path that a text spells in the default delimiters. -/
def Path.ofText? (text : String) : Except CompileError Path :=
  Compiler.standard.compile text

end DocPath
