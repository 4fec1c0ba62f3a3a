import BladeStyle.Literal
import BladeStyle.Registry.Builtin
import BladeStyle.Source.Expression

/-!
# Parsing styles

A text is a style of a registry if its name is registered, it has as many arguments as
the template asks, and every argument can be bound to its parameter: the argument of a
literal parameter is read as an integer, that of a composite one is a style again.  The
arguments are taken from left to right and the first failure counts.  Children are
followed down to a fixed number of levels.
-/

namespace BladeStyle

/-- Why a text is no style of a registry.  Positions count from one. -/
inductive ParseError where
  | malformed (error : SyntaxError)
  | unknownStyle (name : String)
  | arity (name : String) (expected given : Nat) (variadic : Bool)
  | nested (parent : String) (index : Nat) (source : ParseError)
  | bind (parent : String) (index : Nat) (source : BindError)
  | tooDeep (limit : Nat)
  deriving DecidableEq

namespace ParseError

/-- The text shown for an error. -/
def message : ParseError → String
  | malformed e => e.message
  | unknownStyle name => s!"style not recognized: {name}"
  | arity name expected given _ =>
    s!"incorrect number of parameters for style: {name} (expected {expected}, got {given})"
  | nested parent index _ => s!"failure while parsing parameter {index} in style {parent}"
  | bind parent index _ => s!"cannot bind parameter {index} in style {parent}"
  | tooDeep limit => s!"styles nested deeper than {limit} levels"

/-- Whether the text named a registered style at all. -/
def namesStyle : ParseError → Bool
  | malformed _ | unknownStyle _ => false
  | _ => true

/-- The innermost of nested failures. -/
def innermost : ParseError → ParseError
  | nested _ _ source => source.innermost
  | e => e

/-- The failure of an argument as a failure of the node above it.  That the text is too
deep is said of the whole text. -/
def inArgument (parent : String) (index : Nat) : ParseError → ParseError
  | tooDeep limit => tooDeep limit
  | e => nested parent index e

end ParseError

/-- The number of child levels that parsing follows. -/
def levelLimit : Nat := 64

namespace Style

/-- Binds an argument to the parameter at `index`; past the declared list it repeats the
variadic tail. -/
def bindArgument (s : Style) (declared index : Nat) (value : Value) :
    Except BindError Style :=
  if index < declared then s.bindAt index value else s.appendRepeat value

/-- The node with a comment at parameter `index`. -/
def commentParam (s : Style) (index : Nat) (comment : String) : Style :=
  { s with params := s.params.modify index fun p => { p with comment } }

/-- Whether the arguments at `index` are literals: they are if the declared parameter
there is one, or the variadic tail past the declared list. -/
def takesLiteral (s : Style) (declared index : Nat) : Bool :=
  s.params[min index (declared - 1)]?.any Param.isLiteral

end Style

namespace Registry

/-- The value of an argument. -/
def argumentValue (parseChild : Source → Except ParseError Style) (parent : String)
    (index : Nat) (literal : Bool) (argument : Source) : Except ParseError Value :=
  if literal then .ok (.int (Literal.read argument.literal))
  else
    match parseChild argument with
    | .ok child => .ok (.style child)
    | .error e => .error (e.inArgument parent (index + 1))

/-- Binds the arguments from position `index` on to the parameters of `s`. -/
def bindArguments (parseChild : Source → Except ParseError Style) (parent : String)
    (declared : Nat) (index : Nat) (s : Style) : List Source → Except ParseError Style
  | [] => .ok s
  | argument :: arguments =>
    let literal := s.takesLiteral declared index
    match argumentValue parseChild parent index literal argument with
    | .error e => .error e
    | .ok value =>
      match s.bindArgument declared index value with
      | .error e => .error (.bind parent (index + 1) e)
      | .ok t =>
        let comment := argument.leadingText
        let t := if literal ∧ comment ≠ [] then t.commentParam index (String.ofList comment) else t
        bindArguments parseChild parent declared (index + 1) t arguments

/-- The style of an expression, with `parseChild` for its children. -/
def parseNode (r : Registry) (parseChild : Source → Except ParseError Style)
    (e : Expression) : Except ParseError Style :=
  match r.template? e.name with
  | none => .error (.unknownStyle e.name)
  | some template =>
    let declared := template.params.length
    let given := e.arguments.length
    if given < declared ∨ declared < given ∧ ¬ template.isVariadic then
      .error (.arity e.name declared given template.isVariadic)
    else
      (bindArguments parseChild e.name declared 0 template e.arguments).map fun s =>
        { s with comment := String.ofList e.comment }

/-- The style of a source, unless it has more than the given number of levels. -/
def parseWithin (r : Registry) : Nat → Source → Except ParseError Style
  | 0, _ => .error (.tooDeep levelLimit)
  | levels + 1, source =>
    match Expression.ofSource? source with
    | .error e => .error (.malformed e)
    | .ok e => r.parseNode (fun argument => r.parseWithin levels argument) e

/-- The style that a text stands for. -/
def parse (r : Registry) (text : String) : Except ParseError Style :=
  match Source.ofText? text with
  | .error e => .error (.malformed e)
  | .ok source => r.parseWithin (levelLimit + 1) source

end Registry

/-- The style that a text stands for among the built-in ones. -/
def Style.parse (text : String) : Except ParseError Style := Registry.builtin.parse text

end BladeStyle
