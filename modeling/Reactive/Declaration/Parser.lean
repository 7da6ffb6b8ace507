import Reactive.Declaration
import Reactive.Expr.Parser
import Reactive.TypeRef.Parser

/-!
# Reactive.Declaration.Parser — reading a declaration file

A member that is not well formed is reported and skipped, and so is a class whose header or end is not; reading goes
on behind it, so one run reports the errors of the whole file.  `SourceFile.parse` gives the file only if there is none.
-/

namespace Reactive

namespace Parse

/-! ### Attributes -/

/-- The name of an attribute without the ending `Attribute`, unless nothing else is left. -/
def attributeName (name : String) : String :=
  let cs := name.toList
  let ending := "Attribute".toList
  if ending.isSuffixOf cs && cs.length > ending.length then String.ofList (cs.take (cs.length - ending.length)) else name

/-- A constant: a literal, a number with a minus sign, `nameof` a name, or a dotted name. -/
def constant : Parse Constant := do
  match ← current with
  | .string s => do
    advance
    return .string s
  | .integer i => do
    advance
    return .int i
  | .float x => do
    advance
    return .float x
  | .keyword .true_ => do
    advance
    return .bool true
  | .keyword .false_ => do
    advance
    return .bool false
  | .keyword .null => do
    advance
    return .null
  | .symbol .minus => do
    advance
    match ← current with
    | .integer i => do
      advance
      return .int (-i)
    | .float x => do
      advance
      return .float x.neg
    | _ => unexpected [.integer 0, .float .zero]
  | .identifier word => do
    if word = "nameof" && (← get).peek = .symbol .leftParen then
      advance
      advance
      let path ← qualifiedName
      expect (.symbol .rightParen)
      return .string (lastSegment path)
    else return .path (segments (← qualifiedName))
  | found => fail (.notConstant found)

/-- An argument of an attribute; a name and an equals sign may stand before its value. -/
def attributeArg : Parse AttributeArg := do
  let start ← currentSpan
  let c ← get
  let name ←
    if c.current.name?.isSome && c.peek = .symbol .assign then
      let (name, _) ← identifier
      expect (.symbol .assign)
      pure (some name)
    else pure none
  let value ← constant
  return ⟨name, value, start.through (← previousSpan)⟩

/-- An attribute without its brackets. -/
def attributeItem : Parse Attribute := do
  let start ← currentSpan
  let name ← qualifiedName
  let args ←
    if ← accept (.symbol .leftParen) then
      let args ← listedBefore (.symbol .rightParen) attributeArg (← remaining)
      expect (.symbol .rightParen)
      pure args
    else pure []
  return ⟨attributeName name, args, start.through (← previousSpan)⟩

/-- Groups of attributes in brackets, as many as there are. -/
def attributesWithin : Nat → Parse (List Attribute)
  | 0 => return []
  | n + 1 => do
    if ← accept (.symbol .leftBracket) then
      let group ← separated attributeItem (← remaining)
      expect (.symbol .rightBracket)
      return group ++ (← attributesWithin n)
    else return []

/-- The attributes before a declaration. -/
def attributes : Parse (List Attribute) := do attributesWithin (← remaining)

/-! ### Modifiers -/

/-- The token may stand behind a modifier. -/
def followsModifier : Token → Bool
  | .identifier _ | .keyword .class_ | .keyword .static => true
  | _ => false

/-- Modifiers, as many as there are; a contextual word is one only if a declaration goes on behind it. -/
def modifiersWithin : Nat → Parse (List Modifier)
  | 0 => return []
  | n + 1 => do
    if ← accept (.keyword .static) then return .static :: (← modifiersWithin n)
    let c ← get
    match c.current.name?.bind Modifier.ofWord? with
    | some m => do
      if followsModifier c.peek then
        advance
        return m :: (← modifiersWithin n)
      else return []
    | none => return []

/-- The modifiers before a declaration. -/
def modifiers : Parse (List Modifier) := do modifiersWithin (← remaining)

/-! ### Members -/

/-- A body behind an arrow, if there is an arrow. -/
def body? : Parse (Option Expr) := do
  if ← accept (.symbol .arrow) then return some (← expression) else return none

/-- A parameter of a method. -/
def param : Parse Param := do
  let start ← currentSpan
  let type ← type
  let (name, _) ← identifier
  return ⟨name, type, start.through (← previousSpan)⟩

/-- What follows the name of a method. -/
def methodRest (returnType : TypeRef) : Parse MethodDecl := do
  expect (.symbol .leftParen)
  let params ← listedBefore (.symbol .rightParen) param (← remaining)
  expect (.symbol .rightParen)
  let body ← body?
  expect (.symbol .semicolon)
  return ⟨returnType, params, body⟩

/-- Words that say who may use an accessor; they are read and not kept. -/
def skipAccessibility : Nat → Parse Unit
  | 0 => return ()
  | n + 1 => do
    match (← current).name?.bind Modifier.ofWord? with
    | some m => do
      if m.isAccessibility then
        advance
        skipAccessibility n
    | none => return ()

/-- The rest of an accessor whose name comes next. -/
def accessorRest : Parse Accessor := do
  let span ← currentSpan
  advance
  let body ← body?
  expect (.symbol .semicolon)
  return ⟨body, span.through (← previousSpan)⟩

/-- Accessors up to the closing brace, given the getter and the setter read before. -/
def accessors : Nat → Option Accessor → Option Accessor → Parse (Option Accessor × Option Accessor)
  | 0, _, _ => do fail (.notAccessor (← current))
  | n + 1, getter, setter => do
    if ← check (.symbol .rightBrace) then return (getter, setter)
    skipAccessibility (← remaining)
    match ← current with
    | .identifier word => do
      if word = "get" then
        if getter.isSome then fail (.duplicateAccessor word)
        accessors n (some (← accessorRest)) setter
      else if word = "set" || word = "init" then
        if setter.isSome then fail (.duplicateAccessor word)
        accessors n getter (some (← accessorRest))
      else fail (.notAccessor (.identifier word))
    | found => fail (.notAccessor found)

/-- What follows the name of a property whose accessors stand in braces. -/
def propertyRest (type : TypeRef) : Parse PropertyDecl := do
  expect (.symbol .leftBrace)
  let (getter, setter) ← accessors (← remaining) none none
  expect (.symbol .rightBrace)
  let initializer ←
    if ← accept (.symbol .assign) then
      let value ← expression
      expect (.symbol .semicolon)
      pure (some value)
    else pure none
  return ⟨type, getter, setter, initializer⟩

/-- What follows the name of a property that is an arrow and its getter. -/
def arrowProperty (type : TypeRef) : Parse PropertyDecl := do
  let arrow ← currentSpan
  advance
  let body ← expression
  expect (.symbol .semicolon)
  return ⟨type, some ⟨some body, arrow.through (← previousSpan)⟩, none, none⟩

/-- What follows the name of a member. -/
def memberRest (type : TypeRef) : Parse MemberKind := do
  match ← current with
  | .symbol .leftParen => return .method (← methodRest type)
  | .symbol .arrow => return .property (← arrowProperty type)
  | .symbol .leftBrace => return .property (← propertyRest type)
  | _ => unexpected [.symbol .leftParen, .symbol .arrow, .symbol .leftBrace]

/-- A member. -/
def member : Parse MemberDecl := do
  let start ← currentSpan
  let attributes ← attributes
  let modifiers ← modifiers
  let type ← type
  let (name, nameSpan) ← identifier
  let kind ← memberRest type
  return ⟨name, attributes, modifiers, kind, nameSpan, start.through (← previousSpan)⟩

/-! ### Classes -/

/-- A class up to its opening brace, without members and with the span of its first token. -/
def classHeader : Parse ClassDecl := do
  let start ← currentSpan
  let _ ← attributes
  let modifiers ← modifiers
  expect (.keyword .class_)
  let (name, nameSpan) ← identifier
  let typeParams ←
    if ← accept (.symbol .less) then
      let params ← separated (Prod.fst <$> identifier) (← remaining)
      expect (.symbol .greater)
      pure params
    else pure []
  let bases ← if ← accept (.symbol .colon) then separated type (← remaining) else pure []
  expect (.symbol .leftBrace)
  return ⟨name, typeParams, modifiers, bases, [], nameSpan, start⟩

/-- The members up to the closing brace of the class or the end, and the errors of those that are skipped. -/
def members : Nat → Cursor → List MemberDecl × List ParseError × Cursor
  | 0, c => ([], [], c)
  | n + 1, c =>
    if c.current = .symbol .rightBrace || c.atEnd then ([], [], c)
    else
      match member c with
      | .ok m c =>
        let (ms, errors, c) := members n c
        (m :: ms, errors, c)
      | .error e c =>
        let (ms, errors, c) := members n c.memberEnd
        (ms, e :: errors, c)

/-- A class, if its header and its end are well formed, and the errors found in it. -/
def classDecl (c : Cursor) : Option ClassDecl × List ParseError × Cursor :=
  match classHeader c with
  | .error e c => (none, [e], c)
  | .ok header c =>
    let (ms, errors, c) := members c.tokens.length c
    match expect (.symbol .rightBrace) c with
    | .error e c => (none, errors ++ [e], c)
    | .ok _ c => (some { header with members := ms, span := header.span.through c.previousSpan }, errors, c)

/-! ### Files -/

/-- A `using` directive. -/
def usingDirective : Parse String := do
  expect (.keyword .using_)
  let path ← qualifiedName
  expect (.symbol .semicolon)
  return path

/-- The `using` directives, and the errors of those that are skipped. -/
def usings : Nat → Cursor → List String × List ParseError × Cursor
  | 0, c => ([], [], c)
  | n + 1, c =>
    if c.current = .keyword .using_ then
      match usingDirective c with
      | .ok path c =>
        let (paths, errors, c) := usings n c
        (path :: paths, errors, c)
      | .error e c =>
        let (paths, errors, c) := usings n c.pastSemicolon
        (paths, e :: errors, c)
    else ([], [], c)

/-- The namespace and whether it has braces, and the errors in it. -/
def namespaceClause (c : Cursor) : Option String × Bool × List ParseError × Cursor :=
  if c.current = .keyword .namespace_ then
    let (name, errors, c) := match qualifiedName c.advance with
      | .ok name c => (some name, [], c)
      | .error e c => (none, [e], c)
    if c.current = .symbol .leftBrace then (name, true, errors, c.advance)
    else
      match expect (.symbol .semicolon) c with
      | .ok _ c => (name, false, errors, c)
      | .error e c => (name, false, errors ++ [e], c)
  else (none, false, [], c)

/-- The classes up to the end, or to the closing brace of a namespace with braces, and all errors. -/
def classes (braced : Bool) : Nat → Cursor → List ClassDecl × List ParseError × Cursor
  | 0, c => ([], [], c)
  | n + 1, c =>
    if c.atEnd || (braced && c.current = .symbol .rightBrace) then ([], [], c)
    else
      match classDecl c with
      | (some d, errors, c) =>
        let (ds, more, c) := classes braced n c
        (d :: ds, errors ++ more, c)
      | (none, errors, c) =>
        let (ds, more, c) := classes braced n c.classStart
        (ds, errors ++ more, c)

/-- A file and all errors in it. -/
def file (c : Cursor) : SourceFile × List ParseError :=
  let (paths, errors₁, c) := usings c.tokens.length c
  let (name, braced, errors₂, c) := namespaceClause c
  let (ds, errors₃, c) := classes braced c.tokens.length c
  let errors₄ :=
    if braced then
      match expect (.symbol .rightBrace) c with
      | .ok _ _ => []
      | .error e _ => [e]
    else []
  (⟨paths, name, ds⟩, errors₁ ++ errors₂ ++ errors₃ ++ errors₄)

end Parse

/-- The file that a whole text says. -/
def SourceFile.parse (text : String) : Except SyntaxError SourceFile :=
  match tokenize text with
  | .error errors => .error (.lex errors)
  | .ok stream =>
    match Parse.file stream.cursor with
    | (file, []) => .ok file
    | (_, errors) => .error (.parse errors)

/-- The declarations of a text, under a name and conventions. -/
def DeclarationSet.parse (name text : String) (conventions : Conventions) : Except SyntaxError DeclarationSet :=
  (SourceFile.parse text).map fun file => ⟨name, text, file, conventions⟩

end Reactive
