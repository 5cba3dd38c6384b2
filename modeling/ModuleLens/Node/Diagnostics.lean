import ModuleLens.Node

/-! What is wrong with a module.  Every node is checked by itself; the diagnostics of a tree are
those of its nodes, parents first.  An import reports that it could not be followed, or carries
the findings of the module behind it, told at the import; a finding that was already carried over
once is passed on as it is. -/

namespace ModuleLens

inductive Problem where
  | unexpected
  | missingTypeName
  | missingColon
  | missingOperator
  | missingOperand
  | missingTypeOrValue
  | missingValue
  | missingEquals
  | typedObjectProperty
  | missingClassKeyword
  | missingClassName
  | missingOpeningBrace
  | missingClosingBrace
  | missingFunctionHeader
  | missingFunctionKeyword
  | missingFunctionName
  | missingOpeningParenthesis
  | missingClosingParenthesis
  | missingOpeningBracket
  | missingClosingBracket
  | missingKey
  | conflictingKeywords
  | missingPath
  | moduleNotFound (path : Text)
  | importTooDeep (path : Text) (limit : Nat)
  | importTimedOut (path : Text)
deriving DecidableEq, Repr

def Problem.message : Problem → String
  | unexpected => "Unexpected identifier"
  | missingTypeName => "Provide type identifier"
  | missingColon => "Missing colon before type identifier"
  | missingOperator => "Provide binary operator"
  | missingOperand => "Incorrect binary expression"
  | missingTypeOrValue => "Provide property type or value."
  | missingValue => "Provide value"
  | missingEquals => "Missing '=' before value"
  | typedObjectProperty => "Object property cannot declare a type"
  | missingClassKeyword => "Missing class keyword"
  | missingClassName => "Provide class identifier"
  | missingOpeningBrace => "Missing opening brace"
  | missingClosingBrace => "Missing closing brace"
  | missingFunctionHeader => "Provide function header"
  | missingFunctionKeyword => "Missing function keyword"
  | missingFunctionName => "Provide function identifier"
  | missingOpeningParenthesis => "Missing opening parenthesis"
  | missingClosingParenthesis => "Missing closing parenthesis"
  | missingOpeningBracket => "Missing opening bracket"
  | missingClosingBracket => "Missing closing bracket"
  | missingKey => "Provide entry key"
  | conflictingKeywords => "Use either 'amends' or 'extends'"
  | missingPath => "Provide module path"
  | moduleNotFound path => "Module not found: " ++ String.ofList path
  | importTooDeep path limit =>
    "Module not found: " ++ String.ofList path ++ " (import depth limit " ++ toString limit ++
      " reached)"
  | importTimedOut path =>
    "Module not found: " ++ String.ofList path ++ " (timed out waiting for the module)"

/-- A problem of the module itself, or one of a module that it imports: then with the path of the
last import on the way and with the place of the problem in its own module, counted from one. -/
inductive Finding where
  | own (problem : Problem)
  | included (path : Text) (line column : Nat) (problem : Problem)
deriving DecidableEq, Repr

def Finding.message : Finding → String
  | own problem => problem.message
  | included path line column problem =>
    "Error in included file " ++ String.ofList path ++ ":" ++ toString line ++ ":" ++
      toString column ++ ": " ++ problem.message

structure Diagnostic where
  range : Extent
  finding : Finding
deriving DecidableEq, Repr

def Diagnostic.message (d : Diagnostic) : String := d.finding.message

/-- What a finding of an imported module becomes where it is imported by `path`. -/
def Diagnostic.carried (path : Text) (d : Diagnostic) : Finding :=
  match d.finding with
  | .own problem =>
    let start := d.range.positions.start
    .included path (start.line + 1) (start.character + 1) problem
  | finding => finding

namespace Node

def problemIf (condition : Bool) (problem : Problem) : List Problem :=
  if condition then [problem] else []

/-- The problems of a property: it needs a type, a value or a body, an equals sign asks for a value
or a body, and a value for an equals sign. -/
def propertyProblems (n : Node) (equals : Bool) : List Problem :=
  let assigned := n.has .value || n.has .objectBody
  if !n.has .type && !assigned && !equals then [.missingTypeOrValue]
  else
    problemIf (equals && !assigned) .missingValue ++
      problemIf (n.has .value && !equals) .missingEquals

def entryProblems (n : Node) (opened closed equals : Bool) : List Problem :=
  problemIf (!opened) .missingOpeningBracket ++ problemIf (!closed) .missingClosingBracket ++
    problemIf (!n.has .key) .missingKey ++
    (if !n.has .value && !n.has .objectBody then [.missingValue]
      else problemIf (n.has .value && !equals) .missingEquals)

def problems (n : Node) : List Problem :=
  match n.label with
  | .unidentified _ => [.unexpected]
  | .typeReference => problemIf (!n.has .name) .missingTypeName
  | .typeClause colon =>
    problemIf (!colon) .missingColon ++ problemIf (!n.has .type) .missingTypeName
  | .binaryExpression =>
    problemIf (!n.has .operator) .missingOperator ++
      problemIf (!n.has .left || !n.has .right) .missingOperand
  | .classProperty _ equals => n.propertyProblems equals
  | .objectProperty _ equals =>
    n.propertyProblems equals ++
      problemIf (n.has .type && (equals || n.has .value)) .typedObjectProperty
  | .classDeclaration _ keyword =>
    problemIf (!keyword) .missingClassKeyword ++ problemIf (!n.has .name) .missingClassName
  | .classBody opened closed | .objectBody opened closed =>
    problemIf (!opened) .missingOpeningBrace ++ problemIf (!closed) .missingClosingBrace
  | .functionDeclaration => problemIf (!n.has .header) .missingFunctionHeader
  | .functionHeader _ keyword =>
    problemIf (!keyword) .missingFunctionKeyword ++ problemIf (!n.has .name) .missingFunctionName
  | .parameterList opened closed =>
    problemIf (!opened) .missingOpeningParenthesis ++ problemIf (!closed) .missingClosingParenthesis
  | .objectEntry opened closed equals => n.entryProblems opened closed equals
  | _ => []

def importFindings (clause : ImportClause) (outcome : Option (Outcome Node))
    (below : List Diagnostic) : List Finding :=
  (problemIf clause.conflict .conflictingKeywords).map .own ++
    match clause.path with
    | none => [.own .missingPath]
    | some path =>
      match outcome with
      | none => []
      | some .notFound => [.own (.moduleNotFound path)]
      | some (.tooDeep limit) => [.own (.importTooDeep path limit)]
      | some .timedOut => [.own (.importTimedOut path)]
      | some (.resolved _) => below.map (Diagnostic.carried path)

def ownDiagnostics (n : Node) (below : List Diagnostic) : List Diagnostic :=
  let findings :=
    match n.label with
    | .importClause clause => importFindings clause n.outcome below
    | _ => n.problems.map .own
  findings.map fun finding => ⟨n.range, finding⟩

mutual

def diagnostics : Node → List Diagnostic
  | mk info label outcome children =>
    (mk info label outcome children).ownDiagnostics (outcomeDiagnostics outcome) ++
      diagnosticsAll children

def outcomeDiagnostics : Option (Outcome Node) → List Diagnostic
  | none => []
  | some outcome => targetDiagnostics outcome

def targetDiagnostics : Outcome Node → List Diagnostic
  | .resolved module => diagnostics module
  | .notFound => []
  | .tooDeep _ => []
  | .timedOut => []

def diagnosticsAll : List Node → List Diagnostic
  | [] => []
  | c :: cs => diagnostics c ++ diagnosticsAll cs

end

def shallowDiagnostics (n : Node) : List Diagnostic :=
  n.ownDiagnostics (outcomeDiagnostics n.outcome)

/-- The diagnostics of a tree, or nothing if there are none. -/
def report? (n : Node) : Option (List Diagnostic) :=
  match n.diagnostics with
  | [] => none
  | d :: ds => some (d :: ds)

end Node

end ModuleLens
