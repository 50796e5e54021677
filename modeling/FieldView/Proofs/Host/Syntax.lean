import FieldView.Scope.Statement

/-!
# Syntax trees of the host language

The scope analysis never builds a tree. To say what it should find, this file gives function bodies
as trees, with two readings of each: `kinds`, the tokens that spell it, and `marks`, what it does to
the names of its scope. The second goes by the constructors alone and looks at no token.

Trees are not disambiguated by precedence, so one run of tokens may be spelled by several of them;
these do the same to names. An expression outside of brackets has no lambda, no conditional and no
`:=` in it, and these stand in brackets of any kind, as what is listed there.

Lists inside of expressions are types of their own, since the trees are mutually recursive.
-/

set_option autoImplicit false

namespace FieldView.Host

open FieldView.Scope (Mark)

/-! ## Words and operators -/

inductive Literal
  | int (value : IntLiteral)
  | float (text : String)
  | string (text : String)
  | true
  | false
  | none
  | ellipsis

def Literal.kind : Literal → Kind
  | int value => .int value
  | float text => .float text
  | string text => .string text
  | true => .keyword .trueKw
  | false => .keyword .falseKw
  | none => .keyword .noneKw
  | ellipsis => .punct .ellipsis

inductive UnaryOp
  | plus | minus | invert | not | await

def UnaryOp.kind : UnaryOp → Kind
  | plus => .punct .plus
  | minus => .punct .minus
  | invert => .punct .tilde
  | not => .keyword .notKw
  | await => .keyword .awaitKw

/-- The signs that stand between two operands. -/
def isOperator : Punct → Bool
  | .eqEq | .notEq | .lt | .gt | .le | .ge => true
  | .plus | .minus | .star | .starStar | .slash | .slashSlash | .percent | .atSign => true
  | .amp | .pipe | .caret | .shl | .shr => true
  | _ => false

inductive BinaryOp
  | sign (p : {p : Punct // isOperator p = true})
  | and | or | is | isNot | in | notIn

def BinaryOp.kinds : BinaryOp → List Kind
  | sign p => [.punct p.val]
  | and => [.keyword .andKw]
  | or => [.keyword .orKw]
  | is => [.keyword .isKw]
  | isNot => [.keyword .isKw, .keyword .notKw]
  | .in => [.keyword .inKw]
  | notIn => [.keyword .notKw, .keyword .inKw]

/-- A parameter of a lambda. It has no default. -/
inductive LambdaParam
  | name (id : String)
  | star (id : String)
  | starStar (id : String)
  | bareStar
  | slash

def LambdaParam.kinds : LambdaParam → List Kind
  | name id => [.ident id]
  | star id => [.punct .star, .ident id]
  | starStar id => [.punct .starStar, .ident id]
  | bareStar => [.punct .star]
  | slash => [.punct .slash]

/-- Commas between the parts. -/
def commaSep : List (List Kind) → List Kind
  | [] => []
  | [part] => part
  | part :: next :: parts => part ++ .punct .comma :: commaSep (next :: parts)

/-! ## Expressions and targets -/

mutual

inductive Expr
  | name (id : String)
  | literal (value : Literal)
  /-- An attribute, an element or a call of a value. -/
  | trailed (value : Expr) (trailer : Trailer)
  | unary (op : UnaryOp) (operand : Expr)
  | binary (op : BinaryOp) (left right : Expr)
  /-- A tuple, a list, a set, a dictionary, a comprehension, or one item in parentheses. -/
  | bracketed (bracket : Bracket) (content : Content)

inductive Trailer
  | attr (name : String)
  | subscript (index : Content)
  | call (args : Content)

/-- What stands in brackets. -/
inductive Content
  | items (items : Items)
  | comprehension (element : Item) (isAsync : Bool) (target : Targets) (iterable : Expr)
      (clauses : Clauses)

/-- A comma list, which may end with a comma. -/
inductive Items
  | nil
  | last (item : Item)
  | more (item : Item) (rest : Items)

inductive Item
  | expr (value : Expr)
  | star (value : Item)
  | starStar (value : Item)
  | keyword (name : String) (value : Item)
  | pair (key : Expr) (value : Item)
  | slice (lower upper : Bound)
  | stepped (lower upper step : Bound)
  | conditional (value test : Expr) (otherwise : Item)
  | walrus (name : String) (value : Item)
  | lambda (params : List LambdaParam) (body : Expr)

/-- A bound of a slice. -/
inductive Bound
  | none
  | some (value : Expr)

/-- What follows the first iterable of a comprehension. -/
inductive Clauses
  | nil
  | each (isAsync : Bool) (target : Targets) (iterable : Expr) (rest : Clauses)
  | cond (test : Expr) (rest : Clauses)

inductive Targets
  | nil
  | last (target : Target)
  | more (target : Target) (rest : Targets)

inductive Target
  /-- A name, or what its trailers lead to. -/
  | place (base : String) (trailers : Trailers)
  | starred (target : Target)
  | group (bracket : Bracket) (targets : Targets)

inductive Trailers
  | nil
  | cons (first : Trailer) (rest : Trailers)

end

/-! ## Spelling -/

def forKinds (isAsync : Bool) : List Kind :=
  if isAsync then [.keyword .asyncKw, .keyword .forKw] else [.keyword .forKw]

mutual

def Expr.kinds : Expr → List Kind
  | .name id => [.ident id]
  | .literal value => [value.kind]
  | .trailed value trailer => value.kinds ++ trailer.kinds
  | .unary op operand => op.kind :: operand.kinds
  | .binary op left right => left.kinds ++ (op.kinds ++ right.kinds)
  | .bracketed b content => .opening b :: (content.kinds ++ [.closing b])

def Trailer.kinds : Trailer → List Kind
  | .attr name => [.punct .dot, .ident name]
  | .subscript index => .opening .square :: (index.kinds ++ [.closing .square])
  | .call args => .opening .paren :: (args.kinds ++ [.closing .paren])

def Content.kinds : Content → List Kind
  | .items items => items.kinds
  | .comprehension element isAsync target iterable clauses =>
    element.kinds ++ (forKinds isAsync ++
      (target.kinds ++ .keyword .inKw :: (iterable.kinds ++ clauses.kinds)))

def Items.kinds : Items → List Kind
  | .nil => []
  | .last item => item.kinds
  | .more item rest => item.kinds ++ .punct .comma :: rest.kinds

def Item.kinds : Item → List Kind
  | .expr value => value.kinds
  | .star value => .punct .star :: value.kinds
  | .starStar value => .punct .starStar :: value.kinds
  | .keyword name value => .ident name :: .punct .eq :: value.kinds
  | .pair key value => key.kinds ++ .punct .colon :: value.kinds
  | .slice lower upper => lower.kinds ++ .punct .colon :: upper.kinds
  | .stepped lower upper step =>
    lower.kinds ++ .punct .colon :: (upper.kinds ++ .punct .colon :: step.kinds)
  | .conditional value test otherwise =>
    value.kinds ++ .keyword .ifKw :: (test.kinds ++ .keyword .elseKw :: otherwise.kinds)
  | .walrus name value => .ident name :: .punct .walrus :: value.kinds
  | .lambda params body =>
    .keyword .lambdaKw :: (commaSep (params.map (·.kinds)) ++ .punct .colon :: body.kinds)

def Bound.kinds : Bound → List Kind
  | .none => []
  | .some value => value.kinds

def Clauses.kinds : Clauses → List Kind
  | .nil => []
  | .each isAsync target iterable rest =>
    forKinds isAsync ++ (target.kinds ++ .keyword .inKw :: (iterable.kinds ++ rest.kinds))
  | .cond test rest => .keyword .ifKw :: (test.kinds ++ rest.kinds)

def Targets.kinds : Targets → List Kind
  | .nil => []
  | .last target => target.kinds
  | .more target rest => target.kinds ++ .punct .comma :: rest.kinds

def Target.kinds : Target → List Kind
  | .place base trailers => .ident base :: trailers.kinds
  | .starred target => .punct .star :: target.kinds
  | .group b targets => .opening b :: (targets.kinds ++ [.closing b])

def Trailers.kinds : Trailers → List Kind
  | .nil => []
  | .cons first rest => first.kinds ++ rest.kinds

end

/-! ## Names -/

mutual

/-- The names that an expression reads and binds. A lambda is a scope of its own, and so is a
comprehension but for its first iterable. -/
def Expr.marks : Expr → List Mark
  | .name id => [.reads id]
  | .literal _ => []
  | .trailed value trailer => value.marks ++ trailer.marks
  | .unary _ operand => operand.marks
  | .binary _ left right => left.marks ++ right.marks
  | .bracketed _ content => content.marks

def Trailer.marks : Trailer → List Mark
  | .attr _ => []
  | .subscript index => index.marks
  | .call args => args.marks

def Content.marks : Content → List Mark
  | .items items => items.marks
  | .comprehension _ _ _ iterable _ => iterable.marks

def Items.marks : Items → List Mark
  | .nil => []
  | .last item => item.marks
  | .more item rest => item.marks ++ rest.marks

def Item.marks : Item → List Mark
  | .expr value => value.marks
  | .star value => value.marks
  | .starStar value => value.marks
  | .keyword _ value => value.marks
  | .pair key value => key.marks ++ value.marks
  | .slice lower upper => lower.marks ++ upper.marks
  | .stepped lower upper step => lower.marks ++ (upper.marks ++ step.marks)
  | .conditional value test otherwise => value.marks ++ (test.marks ++ otherwise.marks)
  | .walrus name value => .binds name :: value.marks
  | .lambda _ _ => []

def Bound.marks : Bound → List Mark
  | .none => []
  | .some value => value.marks

end

mutual

/-- The names that an assignment to a target binds, and those that it reads on the way. -/
def Target.marks : Target → List Mark
  | .place base .nil => [.binds base]
  | .place base (.cons first rest) => .reads base :: (first.marks ++ rest.marks)
  | .starred target => target.marks
  | .group _ targets => targets.marks

def Targets.marks : Targets → List Mark
  | .nil => []
  | .last target => target.marks
  | .more target rest => target.marks ++ rest.marks

def Trailers.marks : Trailers → List Mark
  | .nil => []
  | .cons first rest => first.marks ++ rest.marks

end

/-! ## Simple statements -/

/-- One or more values with commas between them. -/
structure Exprs where
  first : Expr
  rest : List Expr := []

def Exprs.kinds (values : Exprs) : List Kind :=
  commaSep ((values.first :: values.rest).map Expr.kinds)

def Exprs.marks (values : Exprs) : List Mark := (values.first :: values.rest).flatMap Expr.marks

/-- The words before a value that is handed on. -/
inductive Verb
  | return | assert | raise

def Verb.kind : Verb → Kind
  | .return => .keyword .returnKw
  | assert => .keyword .assertKw
  | raise => .keyword .raiseKw

def asKinds : Option String → List Kind
  | none => []
  | some name => [.keyword .asKw, .ident name]

/-- A module with its path, and the name it gets. -/
structure ImportItem where
  first : String
  rest : List String := []
  given : Option String := none

def ImportItem.kinds (item : ImportItem) : List Kind :=
  .ident item.first ::
    (item.rest.flatMap (fun name => [.punct .dot, .ident name]) ++ asKinds item.given)

def ImportItem.marks (item : ImportItem) : List Mark := [.imports (item.given.getD item.first)]

/-- A member of a module, and the name it gets. -/
structure FromItem where
  name : String
  given : Option String := none

def FromItem.kinds (item : FromItem) : List Kind := .ident item.name :: asKinds item.given

def FromItem.marks (item : FromItem) : List Mark := [.imports (item.given.getD item.name)]

/-- The members that are imported. What `*` stands for is not known. -/
inductive FromItems
  | star
  | names (items : List FromItem) (parens trailing : Bool)

def FromItems.kinds : FromItems → List Kind
  | star => [.punct .star]
  | names items parens trailing =>
    let list := commaSep (items.map FromItem.kinds ++ if trailing then [[]] else [])
    if parens then .opening .paren :: (list ++ [.closing .paren]) else list

def FromItems.marks : FromItems → List Mark
  | star => []
  | names items _ _ => items.flatMap FromItem.marks

/-- A piece of the path to a module, which may be relative. -/
inductive PathPart
  | dot | ellipsis | name (id : String)

def PathPart.kind : PathPart → Kind
  | dot => .punct .dot
  | ellipsis => .punct .ellipsis
  | name id => .ident id

inductive Simple
  /-- An assignment to each of some targets. With none, it is an expression. -/
  | assign (targets : List Targets) (value : Exprs)
  | annotate (target : Target) (type : Expr) (value : Option Exprs)
  | augment (target : Target) (op : String) (value : Exprs)
  | tell (verb : Verb) (value : Option Exprs)
  | raiseFrom (error cause : Expr)
  | import (items : List ImportItem)
  | importFrom (path : List PathPart) (items : FromItems)
  | global (names : List String)
  | nonlocal (names : List String)
  | del (targets : Targets)
  | pass
  | break
  | continue

def Simple.kinds : Simple → List Kind
  | assign targets value => targets.flatMap (·.kinds ++ [.punct .eq]) ++ value.kinds
  | annotate target type value =>
    target.kinds ++ .punct .colon :: (type.kinds ++ value.elim [] (.punct .eq :: ·.kinds))
  | augment target op value => target.kinds ++ .augAssign op :: value.kinds
  | tell verb value => verb.kind :: value.elim [] (·.kinds)
  | raiseFrom error cause => .keyword .raiseKw :: (error.kinds ++ .keyword .fromKw :: cause.kinds)
  | .import items => .keyword .importKw :: commaSep (items.map ImportItem.kinds)
  | importFrom path items =>
    .keyword .fromKw :: (path.map PathPart.kind ++ .keyword .importKw :: items.kinds)
  | .global names => .keyword .globalKw :: commaSep (names.map ([.ident ·]))
  | .nonlocal names => .keyword .nonlocalKw :: commaSep (names.map ([.ident ·]))
  | del targets => .keyword .delKw :: targets.kinds
  | pass => [.keyword .passKw]
  | .break => [.keyword .breakKw]
  | .continue => [.keyword .continueKw]

def Simple.marks : Simple → List Mark
  | assign targets value => targets.flatMap (·.marks) ++ value.marks
  | annotate target type value => target.marks ++ (type.marks ++ value.elim [] (·.marks))
  | augment target _ value => target.marks ++ value.marks
  | tell _ value => value.elim [] (·.marks)
  | raiseFrom error cause => error.marks ++ cause.marks
  | .import items => items.flatMap ImportItem.marks
  | importFrom _ items => items.marks
  | .global names => names.map .declaresGlobal
  | .nonlocal names => names.map .declaresNonlocal
  | del targets => targets.marks
  | pass => []
  | .break => []
  | .continue => []

/-! ## Compound statements -/

/-- A value, and the target that it is given to. -/
structure AsItem where
  value : Expr
  target : Option Target := none

def AsItem.kinds (item : AsItem) : List Kind :=
  item.value.kinds ++ item.target.elim [] (.keyword .asKw :: ·.kinds)

def AsItem.marks (item : AsItem) : List Mark := item.value.marks ++ item.target.elim [] (·.marks)

/-- What stands before the colon of a clause. A compound statement is one clause or several. -/
inductive Header
  | if (test : Expr)
  | elif (test : Expr)
  | while (test : Expr)
  | else
  | try
  | finally
  | for (target : Targets) (iterable : Exprs)
  | with (items : List AsItem)
  | except (item : Option AsItem)

def Header.kinds : Header → List Kind
  | .if test => .keyword .ifKw :: test.kinds
  | elif test => .keyword .elifKw :: test.kinds
  | .while test => .keyword .whileKw :: test.kinds
  | .else => [.keyword .elseKw]
  | .try => [.keyword .tryKw]
  | .finally => [.keyword .finallyKw]
  | .for target iterable =>
    .keyword .forKw :: (target.kinds ++ .keyword .inKw :: iterable.kinds)
  | .with items => .keyword .withKw :: commaSep (items.map AsItem.kinds)
  | except item => .keyword .exceptKw :: item.elim [] (·.kinds)

def Header.marks : Header → List Mark
  | .if test => test.marks
  | elif test => test.marks
  | .while test => test.marks
  | .else => []
  | .try => []
  | .finally => []
  | .for target iterable => target.marks ++ iterable.marks
  | .with items => items.flatMap AsItem.marks
  | except item => item.elim [] (·.marks)

/-- What stands before the name of a parameter. -/
inductive Stars
  | none | one | two

def Stars.kinds : Stars → List Kind
  | none => []
  | one => [.punct .star]
  | two => [.punct .starStar]

inductive Param
  | named (stars : Stars) (name : String) (type default : Option Expr)
  | bareStar
  | slash

def Param.kinds : Param → List Kind
  | named stars name type default =>
    stars.kinds ++ .ident name ::
      (type.elim [] (.punct .colon :: ·.kinds) ++ default.elim [] (.punct .eq :: ·.kinds))
  | bareStar => [.punct .star]
  | slash => [.punct .slash]

/-- What the definition of a function evaluates for a parameter. -/
def Param.marks : Param → List Mark
  | named _ _ type default => type.elim [] (·.marks) ++ default.elim [] (·.marks)
  | bareStar => []
  | slash => []

mutual

inductive Stmt
  /-- A simple statement that is alone on the rest of its line, or that a semicolon joins to the
  next one. -/
  | simple (statement : Simple) (joined : Bool)
  | clause (header : Header) (body : Body)
  | function (decorators : List Expr) (name : String) (params : List Param) (trailing : Bool)
      (returns : Option Expr) (body : Body)
  | class (decorators : List Expr) (name : String) (bases : Option Items) (body : Body)

inductive Body
  | nil
  | cons (first : Stmt) (rest : Body)

end

/-- A block of these tokens. -/
def blockKinds (body : List Kind) : List Kind := .newline :: .indent :: (body ++ [.dedent])

def decoratorKinds (decorators : List Expr) : List Kind :=
  decorators.flatMap fun e => .punct .atSign :: (e.kinds ++ [.newline])

/-- The header of a function, from its name on. -/
def functionKinds (name : String) (params : List Param) (trailing : Bool)
    (returns : Option Expr) : List Kind :=
  .ident name :: .opening .paren ::
    (commaSep (params.map Param.kinds ++ if trailing then [[]] else []) ++
      .closing .paren :: returns.elim [] (.punct .arrow :: ·.kinds))

/-- The header of a class, from its name on. -/
def classKinds (name : String) (bases : Option Items) : List Kind :=
  .ident name ::
    bases.elim [] fun items => .opening .paren :: (items.kinds ++ [.closing .paren])

mutual

def Stmt.kinds : Stmt → List Kind
  | .simple statement joined =>
    statement.kinds ++ [if joined then .punct .semicolon else .newline]
  | .clause header body => header.kinds ++ .punct .colon :: blockKinds body.kinds
  | .function decorators name params trailing returns body =>
    decoratorKinds decorators ++ .keyword .defKw ::
      (functionKinds name params trailing returns ++ .punct .colon :: blockKinds body.kinds)
  | .class decorators name bases body =>
    decoratorKinds decorators ++ .keyword .classKw ::
      (classKinds name bases ++ .punct .colon :: blockKinds body.kinds)

def Body.kinds : Body → List Kind
  | .nil => []
  | .cons first rest => first.kinds ++ rest.kinds

end

mutual

/-- What a statement does to the names of its scope. A nested function or class binds its name, and
evaluates its decorators, types, defaults and bases; its body is a scope of its own. -/
def Stmt.marks : Stmt → List Mark
  | .simple statement _ => statement.marks
  | .clause header body => header.marks ++ body.marks
  | .function decorators name params _ returns _ =>
    decorators.flatMap Expr.marks ++
      .binds name :: (params.flatMap Param.marks ++ returns.elim [] Expr.marks)
  | .class decorators name bases _ =>
    decorators.flatMap Expr.marks ++ .binds name :: bases.elim [] Items.marks

def Body.marks : Body → List Mark
  | .nil => []
  | .cons first rest => first.marks ++ rest.marks

end

end FieldView.Host
